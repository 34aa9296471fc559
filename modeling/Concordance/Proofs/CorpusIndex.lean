import Concordance.Proofs.Corpus
import Concordance.Proofs.Numbers
import Mathlib.Algebra.Order.BigOperators.Group.List
import Mathlib.Algebra.Order.Group.Nat

/-!
# The index of a corpus

What `Corpus.index` promises, read off its definition: a term is in the index exactly if some
document has it, its postings are in the strict order of the documents and never empty, and a
document that fits has numbers that mean what they say. The tokens of an analyzed document are the
same as those of its texts, so the posting and the entry that are recorded for it are those of the
corpus (`posting_eq`, `entry_eq`).
-/

namespace Concordance

namespace Corpus

variable {a : Analyzer} {c : Corpus} {term id : Bytes} {fields : Dict Bytes}

/-! ### One document -/

/-- The tokens of a field are those of its text. -/
theorem mem_fieldTokens {f : Bytes × List Token} :
    f ∈ fieldTokens a fields ↔
      ∃ text, fields.find? f.1 = some text ∧ f.2 = a.tokens text f.1 := by
  obtain ⟨field, tokens⟩ := f
  simp only [fieldTokens, List.mem_map, Prod.mk.injEq, Prod.exists, Dict.find?_eq_some_iff]
  constructor
  · rintro ⟨field', text, hmem, rfl, rfl⟩
    exact ⟨text, hmem, rfl⟩
  · rintro ⟨text, hmem, rfl⟩
    exact ⟨field, text, hmem, rfl, rfl⟩

theorem mem_terms : term ∈ (terms a fields).toList ↔
    ∃ f ∈ fieldTokens a fields, ∃ token ∈ f.2, token.text = term := by
  simp [terms]

/-- The terms of a document are those that occur in it. -/
theorem mem_terms_iff_occurs : term ∈ (terms a fields).toList ↔ Occurs a term fields := by
  rw [mem_terms]
  constructor
  · rintro ⟨⟨field, tokens⟩, hf, token, htoken, hterm⟩
    obtain ⟨text, hfind, htokens⟩ := mem_fieldTokens.1 hf
    exact ⟨field, text, hfind, token, htokens ▸ htoken, hterm⟩
  · rintro ⟨field, text, hfind, token, htoken, hterm⟩
    exact ⟨(field, a.tokens text field), mem_fieldTokens.2 ⟨text, hfind, rfl⟩, token, htoken, hterm⟩

/-- A field has no more tokens than its document. -/
theorem length_le_size {field text : Bytes} (hfind : fields.find? field = some text) :
    (a.tokens text field).length ≤ size a fields :=
  List.le_sum_of_mem (List.mem_map.2
    ⟨(field, a.tokens text field), mem_fieldTokens.2 ⟨text, hfind, rfl⟩, rfl⟩)

theorem positions_eq_nil_iff {tokens : List Token} :
    positions term tokens = [] ↔ ∀ token ∈ tokens, token.text ≠ term := by
  simp [positions]

/-- The hits of a term are the fields in which it has positions. -/
theorem mem_hits {h : FieldHits} : h ∈ hits a term fields ↔
    ∃ text, fields.find? h.field = some text ∧
      h.positions = positions term (a.tokens text h.field) ∧ h.positions ≠ [] := by
  obtain ⟨field, ps⟩ := h
  simp only [hits, List.mem_filter, List.mem_map, FieldHits.mk.injEq, decide_eq_true_eq,
    mem_fieldTokens]
  constructor
  · rintro ⟨⟨f, ⟨text, hfind, htokens⟩, rfl, rfl⟩, hne⟩
    exact ⟨text, hfind, htokens ▸ rfl, hne⟩
  · rintro ⟨text, hfind, rfl, hne⟩
    exact ⟨⟨(field, a.tokens text field), ⟨text, hfind, rfl⟩, rfl, rfl⟩, hne⟩

/-- **A document has hits for the terms that occur in it.** -/
theorem hits_ne_nil_iff : hits a term fields ≠ [] ↔ term ∈ (terms a fields).toList := by
  rw [mem_terms]
  constructor
  · intro hne
    obtain ⟨h, hmem⟩ := List.exists_mem_of_ne_nil _ hne
    obtain ⟨text, hfind, hps, hne⟩ := mem_hits.1 hmem
    rw [hps, ne_eq, positions_eq_nil_iff] at hne
    simp only [ne_eq, not_forall, not_not] at hne
    obtain ⟨token, htoken, heq⟩ := hne
    exact ⟨(h.field, a.tokens text h.field), mem_fieldTokens.2 ⟨text, hfind, rfl⟩, token,
      htoken, heq⟩
  · rintro ⟨⟨field, tokens⟩, hf, token, htoken, rfl⟩
    obtain ⟨text, hfind, htokens⟩ := mem_fieldTokens.1 hf
    have hne : positions token.text tokens ≠ [] := by
      rw [ne_eq, positions_eq_nil_iff]
      exact fun hall ↦ hall token htoken rfl
    have hmem : ⟨field, positions token.text tokens⟩ ∈ hits a token.text fields :=
      mem_hits.2 ⟨text, hfind, congrArg (positions token.text) htokens, hne⟩
    exact List.ne_nil_of_mem hmem

/-- **A document has a posting for each of its terms**, which says where the term occurs. -/
theorem posting?_eq_some_iff {p : Posting} : posting? a term id fields = some p ↔
    p = ⟨id, hits a term fields, (occurrences a term fields).toUInt32⟩ ∧
      term ∈ (terms a fields).toList := by
  rw [posting?, ← hits_ne_nil_iff]
  split
  · rename_i hnil
    exact ⟨fun h ↦ absurd h.symm (Option.some_ne_none p), fun h ↦ absurd hnil h.2⟩
  · rename_i hne
    exact ⟨fun h ↦ ⟨(Option.some.inj h).symm, hne⟩, fun h ↦ h.1 ▸ rfl⟩

/-- The document of a posting. -/
theorem doc_of_posting? {p : Posting} (h : posting? a term id fields = some p) : p.doc = id := by
  rw [(posting?_eq_some_iff.1 h).1]

/-- The fields of a document's hits ascend by name. -/
theorem hits_ascending (a : Analyzer) (term : Bytes) (fields : Dict Bytes) :
    (hits a term fields).Pairwise fun h h' ↦ h.field < h'.field := by
  refine List.Pairwise.filter _ (List.pairwise_map.2 (List.pairwise_map.2 ?_))
  exact fields.ascending

/-- A document has no more occurrences of a term than tokens. -/
theorem occurrences_le : occurrences a term fields ≤ size a fields := by
  have hsum : ∀ l : List (Bytes × List Token),
      (((l.map fun f ↦ FieldHits.mk f.1 (positions term f.2)).filter (·.positions ≠ [])).map
        fun h ↦ h.positions.length).sum ≤ (l.map fun f ↦ f.2.length).sum := by
    intro l
    induction l with
    | nil => exact Nat.le_refl 0
    | cons f l ih =>
      have hf : (positions term f.2).length ≤ f.2.length := by
        rw [positions, List.length_map]
        exact List.length_filter_le _ _
      rw [List.map_cons, List.filter_cons]
      split
      · simp only [List.map_cons, List.sum_cons]
        omega
      · simp only [List.map_cons, List.sum_cons]
        omega
  exact hsum _

/-! ### The postings of a term -/

/-- The postings of a term are those of the documents that have it. -/
theorem mem_postings {p : Posting} : p ∈ c.postings a term ↔
    ∃ fields, c.find? p.doc = some fields ∧ posting? a term p.doc fields = some p := by
  simp only [postings, List.mem_filterMap, Prod.exists, Dict.find?_eq_some_iff]
  constructor
  · rintro ⟨id, fields, hmem, hp⟩
    rw [doc_of_posting? hp]
    exact ⟨fields, hmem, hp⟩
  · rintro ⟨fields, hmem, hp⟩
    exact ⟨p.doc, fields, hmem, hp⟩

/-- **Postings are in the strict order of their documents.** -/
theorem postings_ascending (a : Analyzer) (c : Corpus) (term : Bytes) :
    (c.postings a term).Pairwise fun p q ↦ p.doc < q.doc := by
  refine List.Pairwise.filterMap _ (fun d d' hlt p hp q hq ↦ ?_) c.ascending
  rw [doc_of_posting? hp, doc_of_posting? hq]
  exact hlt

/-- The terms of a corpus are those of its documents. -/
theorem mem_vocabulary : term ∈ (c.vocabulary a).toList ↔
    ∃ id fields, c.find? id = some fields ∧ term ∈ (terms a fields).toList := by
  simp only [vocabulary, ByteSet.mem_toList_ofList, List.mem_flatMap, Dict.mem_values_iff]
  constructor
  · rintro ⟨fields, ⟨id, hfind⟩, hterm⟩
    exact ⟨id, fields, hfind, hterm⟩
  · rintro ⟨id, fields, hfind, hterm⟩
    exact ⟨fields, ⟨id, hfind⟩, hterm⟩

/-- **A term has postings exactly if it is in the vocabulary.** -/
theorem postings_ne_nil_iff : c.postings a term ≠ [] ↔ term ∈ (c.vocabulary a).toList := by
  rw [mem_vocabulary]
  constructor
  · intro hne
    obtain ⟨p, hmem⟩ := List.exists_mem_of_ne_nil _ hne
    obtain ⟨fields, hfind, hp⟩ := mem_postings.1 hmem
    exact ⟨p.doc, fields, hfind, (posting?_eq_some_iff.1 hp).2⟩
  · rintro ⟨id, fields, hfind, hterm⟩
    exact List.ne_nil_of_mem (mem_postings (p := ⟨id, _, _⟩).2
      ⟨fields, hfind, posting?_eq_some_iff.2 ⟨rfl, hterm⟩⟩)

/-! ### Analyzed documents -/

/-- The posting that is recorded for an analyzed document. -/
theorem posting_eq (a : Analyzer) (id : Bytes) (fields : Dict Bytes) (term : Bytes) :
    AnalyzedDocument.posting ⟨id, fieldTokens a fields⟩ term =
      ⟨id, hits a term fields, (occurrences a term fields).toUInt32⟩ := by
  have hhits : ∀ l : List (Bytes × List Token),
      l.filterMap (AnalyzedDocument.hits? term) =
        (l.map fun f ↦ FieldHits.mk f.1 (positions term f.2)).filter (·.positions ≠ []) := by
    intro l
    induction l with
    | nil => rfl
    | cons f l ih =>
      have hps : (f.2.filter (·.text == term)).map (·.position) = positions term f.2 := by
        simp only [positions, Bool.beq_eq_decide_eq]
      rw [List.filterMap_cons, AnalyzedDocument.hits?, hps, ih, List.map_cons, List.filter_cons]
      cases positions term f.2 <;> simp
  rw [AnalyzedDocument.posting, hhits, hitCount, total_map_toUInt32]
  rfl

/-- The terms under which it is recorded. -/
theorem terms_eq (a : Analyzer) (id : Bytes) (fields : Dict Bytes) :
    AnalyzedDocument.terms ⟨id, fieldTokens a fields⟩ = terms a fields := rfl

/-- The entry that is recorded for it. -/
theorem entry_eq (a : Analyzer) (id : Bytes) (fields : Dict Bytes) :
    AnalyzedDocument.entry ⟨id, fieldTokens a fields⟩ = entry a fields := by
  have hlengths : (fieldTokens a fields).map (fun f ↦ (f.1, f.2.length.toUInt32)) =
      (fields.mapValues fun field text ↦ (a.tokens text field).length.toUInt32).entries := by
    rw [fieldTokens, List.map_map]
    rfl
  rw [AnalyzedDocument.entry, hlengths, Dict.ofList_entries]
  rfl

/-- The length of an entry is the number of tokens, as a word. -/
theorem length_entry (a : Analyzer) (fields : Dict Bytes) :
    (entry a fields).length = (size a fields).toUInt32 := by
  have hvalues : (entry a fields).fieldLengths.values =
      fields.entries.map fun f ↦ ((a.tokens f.2 f.1).length).toUInt32 := by
    simp [entry, Dict.values, Dict.mapValues, Function.comp_def]
  rw [DocumentEntry.length, hvalues,
    total_map_toUInt32 fun f : Bytes × Bytes ↦ (a.tokens f.2 f.1).length, size,
    fieldTokens, List.map_map]
  rfl

end Corpus

end Concordance
