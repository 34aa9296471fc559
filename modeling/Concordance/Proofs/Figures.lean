import Concordance.Proofs.Tallies
import Mathlib.Algebra.BigOperators.Group.Finset.Basic

/-!
# Figures counted from either side

The figures of an index are of two kinds. The number of postings is counted term by term, and the
number of tokens is brought up to date document by document. Both can be counted from the other side
as well: a document has one posting for each of its terms, and the frequencies of the postings come
to the tokens. That the two counts agree is an exchange of sums over the terms and the documents
(`Corpus.sum_vocabulary`), in which a document has no part in a term that does not occur in it.

So the figures add up after any history (`Index.addsUp_atEnd`), if the tokens of each document that
is there can be counted with 32 bits and those of all of them with 64. No count is larger than the
number of all tokens, and so none of them wraps around.
-/

namespace Concordance

variable {a : Analyzer} {c : Corpus} {term : Bytes} {fields : Dict Bytes}

/-! ### Sums over terms and documents -/

namespace Corpus

/-- The terms of a document, found among those of all documents. -/
theorem filter_vocabulary (hfields : fields ∈ c.values) :
    ((c.vocabulary a).toList.filter fun term ↦ term ∈ (terms a fields).toList) =
      (terms a fields).toList := by
  obtain ⟨id, hfind⟩ := Dict.mem_values_iff.1 hfields
  have hfiltered := (ByteSet.toList_ascending (c.vocabulary a)).filter (· ∈ (terms a fields).toList)
  refine eq_of_ascending hfiltered (ByteSet.toList_ascending _) fun term ↦ ?_
  rw [List.mem_filter, decide_eq_true_eq, and_iff_right_iff_imp]
  exact fun hterm ↦ mem_vocabulary.2 ⟨_, fields, hfind, hterm⟩

/-- **A sum over all terms and documents can be taken by documents**, over the terms of each, if a
document has no part in the terms that it does not have. -/
theorem sum_vocabulary {part : Bytes → Dict Bytes → Nat}
    (hpart : ∀ term fields, term ∉ (terms a fields).toList → part term fields = 0) :
    ((c.vocabulary a).toList.map fun term ↦ (c.values.map (part term)).sum).sum =
      (c.values.map fun fields ↦ ((terms a fields).toList.map (part · fields)).sum).sum := by
  have hexchange : ((c.vocabulary a).toList.map fun term ↦ (c.values.map (part term)).sum).sum =
      (c.values.map fun fields ↦ ((c.vocabulary a).toList.map (part · fields)).sum).sum := by
    simpa using Multiset.sum_map_sum_map ((c.vocabulary a).toList : Multiset Bytes)
      (c.values : Multiset (Dict Bytes)) (f := part)
  rw [hexchange]
  refine congrArg List.sum (List.map_congr_left fun fields hfields ↦ ?_)
  rw [← filter_vocabulary (a := a) hfields]
  refine (sum_map_filter fun term _ hterm ↦ hpart term fields fun hmem ↦ ?_).symm
  exact hterm (decide_eq_true hmem)

/-- A sum over the postings of a term is one over the documents, of which those without the term
have no part in it. -/
theorem sum_postings (part : Posting → Nat) (a : Analyzer) (c : Corpus) (term : Bytes) :
    ((c.postings a term).map part).sum =
      (c.entries.map fun d ↦ ((posting? a term d.1 d.2).map part).getD 0).sum := by
  rw [postings]
  induction c.entries with
  | nil => rfl
  | cons d entries ih =>
    rw [List.filterMap_cons, List.map_cons, List.sum_cons, ← ih]
    rcases posting? a term d.1 d.2 with _ | p
    · exact (Nat.zero_add _).symm
    · rfl

/-! ### What each document has a part in -/

/-- A document has one posting for a term that occurs in it. -/
def share (a : Analyzer) (term : Bytes) (fields : Dict Bytes) : Nat :=
  if (terms a fields).contains term then 1 else 0

theorem share_of_mem (hterm : term ∈ (terms a fields).toList) : share a term fields = 1 :=
  if_pos (Dict.contains_iff.2 hterm)

theorem share_of_notMem (hterm : term ∉ (terms a fields).toList) : share a term fields = 0 :=
  if_neg (mt Dict.contains_iff.1 hterm)

theorem getD_posting?_one (id : Bytes) :
    ((posting? a term id fields).map fun _ ↦ 1).getD 0 = share a term fields := by
  rcases hposting : posting? a term id fields with _ | p
  · refine (share_of_notMem fun hterm ↦ ?_).symm
    exact Option.some_ne_none _ ((posting?_eq_some_iff.2 ⟨rfl, hterm⟩).symm.trans hposting)
  · exact (share_of_mem (posting?_eq_some_iff.1 hposting).2).symm

/-- A term that occurs in a document has occurrences there. -/
theorem occurrences_pos (hterm : term ∈ (terms a fields).toList) :
    0 < occurrences a term fields := by
  obtain ⟨h, hmem⟩ := List.exists_mem_of_ne_nil _ (hits_ne_nil_iff.2 hterm)
  obtain ⟨-, -, -, hne⟩ := mem_hits.1 hmem
  exact Nat.lt_of_lt_of_le (List.length_pos_iff.2 hne)
    (List.le_sum_of_mem (List.mem_map.2 ⟨h, hmem, rfl⟩))

/-- And one that does not has none. -/
theorem occurrences_eq_zero_of_notMem (hterm : term ∉ (terms a fields).toList) :
    occurrences a term fields = 0 := by
  have hnil : hits a term fields = [] := by
    by_contra hne
    exact hterm (hits_ne_nil_iff.1 hne)
  rw [occurrences, hnil]
  rfl

/-- The frequency of its posting is how often the term occurs. -/
theorem getD_posting?_frequency (hsize : size a fields < 2 ^ 32) (id : Bytes) :
    ((posting? a term id fields).map fun p ↦ p.frequency.toNat).getD 0 =
      occurrences a term fields := by
  rcases hposting : posting? a term id fields with _ | p
  · refine (occurrences_eq_zero_of_notMem fun hterm ↦ ?_).symm
    exact Option.some_ne_none _ ((posting?_eq_some_iff.2 ⟨rfl, hterm⟩).symm.trans hposting)
  · rw [(posting?_eq_some_iff.1 hposting).1]
    exact toNat_toUInt32_of_lt (occurrences_le.trans_lt hsize)

/-- The positions of all terms of some tokens, together, are as many as the tokens. -/
theorem sum_length_positions {ts : List Bytes} (hts : ts.Nodup) {tokens : List Token}
    (htokens : ∀ token ∈ tokens, token.text ∈ ts) :
    (ts.map fun term ↦ (positions term tokens).length).sum = tokens.length := by
  let texts : Multiset Bytes := (tokens.map (·.text) : List Bytes)
  have hcount : ∀ term, (positions term tokens).length = texts.count term := by
    intro term
    show _ = Multiset.countP (term = ·) texts
    rw [positions, List.length_map, ← List.countP_eq_length_filter, Multiset.coe_countP,
      List.countP_map]
    exact List.countP_congr fun token _ ↦ by simp [eq_comm]
  have hall : ∀ term ∈ texts, term ∈ ts.toFinset := by
    intro term hterm
    obtain ⟨token, htoken, rfl⟩ := List.mem_map.1 (Multiset.mem_coe.1 hterm)
    exact List.mem_toFinset.2 (htokens token htoken)
  calc (ts.map fun term ↦ (positions term tokens).length).sum
      = ∑ term ∈ ts.toFinset, texts.count term := by
        rw [List.sum_toFinset _ hts]
        simp only [hcount]
    _ = texts.card := Multiset.sum_count_eq_card hall
    _ = tokens.length := by rw [Multiset.coe_card, List.length_map]

/-- **The occurrences of all its terms are the tokens of a document.** -/
theorem sum_occurrences (a : Analyzer) (fields : Dict Bytes) :
    ((terms a fields).toList.map (occurrences a · fields)).sum = size a fields := by
  have hfield : ∀ f ∈ fieldTokens a fields,
      ((terms a fields).toList.map fun term ↦ (positions term f.2).length).sum = f.2.length :=
    fun f hf ↦ sum_length_positions ((ByteSet.toList_ascending _).imp Bytes.ne_of_lt)
      fun token htoken ↦ mem_terms.2 ⟨f, hf, token, htoken, rfl⟩
  have hoccurrences : ∀ term, occurrences a term fields =
      ((fieldTokens a fields).map fun f ↦ (positions term f.2).length).sum := by
    intro term
    rw [occurrences, hits, sum_map_filter fun h _ hh ↦ by simpa using hh, List.map_map]
    rfl
  calc ((terms a fields).toList.map (occurrences a · fields)).sum
      = ((terms a fields).toList.map fun term ↦
          ((fieldTokens a fields).map fun f ↦ (positions term f.2).length).sum).sum := by
        simp only [hoccurrences]
    _ = ((fieldTokens a fields).map fun f ↦
          ((terms a fields).toList.map fun term ↦ (positions term f.2).length).sum).sum := by
        simpa using Multiset.sum_map_sum_map ((terms a fields).toList : Multiset Bytes)
          (fieldTokens a fields : Multiset (Bytes × List Token))
          (f := fun term f ↦ (positions term f.2).length)
    _ = size a fields := congrArg List.sum (List.map_congr_left hfield)

/-! ### The index of a corpus -/

theorem values_terms_index (version : UInt64) :
    (c.index a version).terms.values = (c.vocabulary a).toList.map (c.postings a) := by
  show ((c.vocabulary a).entries.map fun e ↦ (e.1, c.postings a e.1)).map (·.2) =
    ((c.vocabulary a).entries.map (·.1)).map (c.postings a)
  rw [List.map_map, List.map_map]
  rfl

theorem values_documents_index (version : UInt64) :
    (c.index a version).documents.values = c.values.map (entry a) := by
  show (c.entries.map fun e ↦ (e.1, entry a e.2)).map (·.2) = (c.entries.map (·.2)).map (entry a)
  rw [List.map_map, List.map_map]
  rfl

/-- What is counted of all postings of all terms is what the documents have a part in. -/
theorem sum_all_postings {count : Posting → Nat} {part : Bytes → Dict Bytes → Nat}
    (hcount : ∀ fields ∈ c.values, ∀ term id,
      ((posting? a term id fields).map count).getD 0 = part term fields)
    (hpart : ∀ term fields, term ∉ (terms a fields).toList → part term fields = 0)
    (version : UInt64) :
    ((c.index a version).terms.values.map fun ps ↦ (ps.map count).sum).sum =
      (c.values.map fun fields ↦ ((terms a fields).toList.map (part · fields)).sum).sum := by
  rw [← sum_vocabulary hpart, values_terms_index, List.map_map]
  refine congrArg List.sum (List.map_congr_left fun term _ ↦ ?_)
  show ((c.postings a term).map count).sum = _
  rw [sum_postings, Dict.values, List.map_map]
  exact congrArg List.sum (List.map_congr_left fun d hd ↦
    hcount d.2 (List.mem_map.2 ⟨d, hd, rfl⟩) term d.1)

/-- **The postings are as many as the distinct terms of the documents.** -/
theorem postings_stats_index (version : UInt64) :
    (c.index a version).stats.postings =
      (c.values.map fun fields ↦ (terms a fields).toList.length).sum := by
  have hone : ∀ ps : Postings, ps.length = (ps.map fun _ ↦ 1).sum := by
    intro ps
    rw [List.map_const', List.sum_replicate_nat, Nat.mul_one]
  have hshare : ∀ fields, ((terms a fields).toList.map (share a · fields)).sum =
      (terms a fields).toList.length := by
    intro fields
    have hall : (terms a fields).toList.map (share a · fields) =
        (terms a fields).toList.map fun _ ↦ 1 := List.map_congr_left fun _ ↦ share_of_mem
    rw [hall, List.map_const', List.sum_replicate_nat, Nat.mul_one]
  calc (c.index a version).stats.postings
      = ((c.index a version).terms.values.map List.length).sum := List.foldr_map.symm
    _ = ((c.index a version).terms.values.map fun ps ↦ (ps.map fun _ ↦ 1).sum).sum := by
        simp only [← hone]
    _ = (c.values.map fun fields ↦ ((terms a fields).toList.map (share a · fields)).sum).sum :=
        sum_all_postings (fun _ _ _ ↦ getD_posting?_one) (fun _ _ ↦ share_of_notMem) version
    _ = _ := by simp only [hshare]

/-- **The frequencies come to the number of all tokens.** -/
theorem sum_frequencies_index (hc : c.Fits a) (version : UInt64) :
    ((c.index a version).terms.values.map fun ps ↦ (ps.map fun p ↦ p.frequency.toNat).sum).sum =
      (c.values.map (size a)).sum := by
  rw [sum_all_postings (fun fields hfields _ ↦ getD_posting?_frequency (hc fields hfields))
    (fun _ _ ↦ occurrences_eq_zero_of_notMem) version]
  simp only [sum_occurrences]

/-- The lengths of the fields of a document come to the number of its tokens. -/
theorem sum_fieldLengths_entry (hsize : size a fields < 2 ^ 32) :
    ((entry a fields).fieldLengths.values.map UInt32.toNat).sum = size a fields := by
  show (((fields.entries.map fun e ↦ (e.1, (a.tokens e.2 e.1).length.toUInt32)).map (·.2)).map
    UInt32.toNat).sum = _
  rw [size, fieldTokens, List.map_map, List.map_map, List.map_map]
  refine congrArg List.sum (List.map_congr_left fun e he ↦ toNat_toUInt32_of_lt ?_)
  exact (length_le_size (Dict.find?_eq_some_iff.2 he)).trans_lt hsize

/-- A document has no more distinct terms than tokens. -/
theorem length_terms_le (a : Analyzer) (fields : Dict Bytes) :
    (terms a fields).toList.length ≤ size a fields := by
  rw [← sum_occurrences, ← List.length_map (f := (occurrences a · fields))]
  refine List.length_le_sum_of_one_le _ fun n hn ↦ ?_
  obtain ⟨term, hterm, rfl⟩ := List.mem_map.1 hn
  exact occurrences_pos hterm

end Corpus

/-! ### After a history -/

namespace Index

/-- **An index with the right tallies is the index of its corpus**, if the corpus can be counted. -/
theorem Tallies.eq_index {ix : Index} (h : ix.Tallies a c) (hc : c.Fits a) :
    ix = c.index a ix.version := by
  have hterms : ix.terms = (c.index a ix.version).terms :=
    (h.tidy.keeps.congr h.mirrors.postings).unique (keeps_index a c ix.version)
  have htokens : ix.tokens = (c.index a ix.version).tokens := by
    rw [h.tokens, Corpus.tokenTotal_of_fits hc]
    rfl
  show Index.mk ix.terms ix.documents ix.tokens ix.version = _
  rw [hterms, h.entries, htokens]
  rfl

/-- The figures of an index add up: counted from the terms and from the documents they are the same,
and no count has wrapped around. -/
structure AddsUp (ix : Index) : Prop where
  /-- There are as many postings as the documents have distinct terms. -/
  postings : ix.stats.postings = (ix.documents.values.map fun e ↦ e.terms.toFinset.card).sum
  /-- They can be counted with 64 bits. -/
  postings_lt : ix.stats.postings < 2 ^ 64
  /-- The tokens are those of all fields of all documents. -/
  lengths : ix.stats.tokens.toNat =
    (ix.documents.values.map fun e ↦ (e.fieldLengths.values.map UInt32.toNat).sum).sum
  /-- The length of a document is exact. -/
  length : ∀ e ∈ ix.documents.values,
    e.length.toNat = (e.fieldLengths.values.map UInt32.toNat).sum
  /-- The tokens are also those of all postings of all terms. -/
  frequencies : ix.stats.tokens.toNat =
    (ix.terms.values.map fun ps ↦ (ps.map fun p ↦ p.frequency.toNat).sum).sum
  /-- The frequency of a posting is exact. -/
  frequency : ∀ ps ∈ ix.terms.values, ∀ p ∈ ps,
    p.frequency.toNat = (p.fields.map fun h ↦ h.positions.length).sum

/-- **The figures of the index of a corpus add up.** -/
theorem addsUp_index (hc : c.Fits a) (htotal : (c.values.map (Corpus.size a)).sum < 2 ^ 64)
    (version : UInt64) : (c.index a version).AddsUp := by
  have hdocuments := Corpus.values_documents_index (a := a) (c := c) version
  have htokens : (c.index a version).stats.tokens.toNat = (c.values.map (Corpus.size a)).sum :=
    toNat_toUInt64_of_lt htotal
  have hlengths : ∀ fields ∈ c.values,
      ((Corpus.entry a fields).fieldLengths.values.map UInt32.toNat).sum = Corpus.size a fields :=
    fun fields hfields ↦ Corpus.sum_fieldLengths_entry (hc fields hfields)
  refine ⟨?_, ?_, ?_, ?_, ?_, ?_⟩
  · rw [Corpus.postings_stats_index, hdocuments, List.map_map]
    refine congrArg List.sum (List.map_congr_left fun fields _ ↦ ?_)
    exact (List.toFinset_card_of_nodup (nodup_terms a fields)).symm
  · rw [Corpus.postings_stats_index]
    exact (List.sum_le_sum fun fields _ ↦ Corpus.length_terms_le a fields).trans_lt htotal
  · rw [htokens, hdocuments, List.map_map]
    exact congrArg List.sum
      (List.map_congr_left fun fields hfields ↦ (hlengths fields hfields).symm)
  · rw [hdocuments]
    refine List.forall_mem_map.2 fun fields hfields ↦ ?_
    rw [hlengths fields hfields, Corpus.length_entry, toNat_toUInt32_of_lt (hc fields hfields)]
  · rw [htokens, Corpus.sum_frequencies_index hc]
  · rw [Corpus.values_terms_index]
    refine List.forall_mem_map.2 fun term _ p hp ↦ ?_
    exact (Corpus.index_describes hc version).frequency term p
      ((Corpus.postings_index version term).symm ▸ hp)

/-- **The figures add up after any history** in which documents were added, replaced and removed,
all of them cleared, or an earlier index taken back, if the tokens of each document that is there
can be counted with 32 bits and those of all of them with 64. They are about the documents that are
there, and the number of tokens is that of their texts. -/
theorem addsUp_atEnd (a : Analyzer) {history : List Move}
    (hfits : (Corpus.atEnd history).Fits a)
    (htotal : ((Corpus.atEnd history).values.map (Corpus.size a)).sum < 2 ^ 64) :
    (atEnd a history).AddsUp ∧ (atEnd a history).documents.keys = (Corpus.atEnd history).keys ∧
      (atEnd a history).stats.tokens.toNat =
        ((Corpus.atEnd history).values.map (Corpus.size a)).sum := by
  rw [(tallies_atEnd a history).eq_index hfits]
  exact ⟨addsUp_index hfits htotal _, Dict.keys_mapValues .., toNat_toUInt64_of_lt htotal⟩

/-- A document with two fields replaces another in the batch in which a third is added, and one that
was there before is removed. -/
theorem addsUp_atEnd_replaced :
    let d : Document := ⟨utf8 "1", .ofList [(utf8 "title", utf8 "red red hat")]⟩
    let d' : Document :=
      ⟨utf8 "1", .ofList [(utf8 "title", utf8 "red hat, red"), (utf8 "body", utf8 "red")]⟩
    let e : Document := ⟨utf8 "2", .ofList [(utf8 "title", utf8 "hat")]⟩
    let f : Document := ⟨utf8 "3", .ofList [(utf8 "title", utf8 "old hat")]⟩
    let history : List Move := [.remove (utf8 "3"), .add [d, e, d'], .add [f]]
    (∀ fields ∈ (Corpus.atEnd history).values, Corpus.size {} fields < 2 ^ 32) ∧
      ((Corpus.atEnd history).values.map (Corpus.size {})).sum < 2 ^ 64 ∧
      (atEnd {} history).AddsUp ∧
      (atEnd {} history).documents.keys = [utf8 "1", utf8 "2"] ∧
      (atEnd {} history).stats.postings = 3 ∧ (atEnd {} history).stats.tokens.toNat = 5 := by
  intro d d' e f history
  have hfits : ∀ fields ∈ (Corpus.atEnd history).values, Corpus.size {} fields < 2 ^ 32 := by
    decide +kernel
  have htotal : ((Corpus.atEnd history).values.map (Corpus.size {})).sum = 5 := by decide +kernel
  have hkeys : (Corpus.atEnd history).keys = [utf8 "1", utf8 "2"] := by decide +kernel
  obtain ⟨hadds, hdocuments, htokens⟩ := addsUp_atEnd {} hfits (by rw [htotal]; decide)
  exact ⟨hfits, by rw [htotal]; decide, hadds, hdocuments.trans hkeys, by decide +kernel,
    htokens.trans htotal⟩

end Index

end Concordance
