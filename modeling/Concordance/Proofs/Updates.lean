import Concordance.Proofs.History
import Concordance.Proofs.Soundness

/-!
# What an update does to the postings

Documents are put into an index and taken out of it one at a time, and what this does to the
postings can be said without knowing what they are about. It only takes that they are tidy
(`Index.IsTidy`): of documents that are there, in their order, and such that a document and its
postings agree. Then a document that is taken out takes its postings with it and no others
(`IsTidy.exists_retract`), one that is put in has its own (`IsTidy.exists_replace`), and the index
stays tidy.

What else holds of an index need only be looked at for one document that is taken out and one that
is put in (`IsKept`); over a batch it holds by induction (`IsTidy.exists_add`).
-/

namespace Concordance

namespace Index

/-- The documents of an index and its postings agree: a document lists its terms once, and these are
the terms that have a posting of it. -/
structure Agrees (ix : Index) : Prop where
  once : ∀ id d, ix.documents.find? id = some d → d.terms.Nodup
  listed : ∀ id d, ix.documents.find? id = some d →
    ∀ term, term ∈ d.terms ↔ ∃ p ∈ ix.postings term, p.doc = id

/-- An index that keeps no term without postings, and whose postings are in order, of documents that
are there and agree with them. -/
structure IsTidy (ix : Index) : Prop extends ix.InOrder where
  keeps : Keeps ix.terms ix.postings
  agrees : ix.Agrees

variable {ix ix' : Index} {a : Analyzer} {f : Bytes → Postings} {id term : Bytes} {p : Posting}

theorem hasDocument_iff : ix.hasDocument id = true ↔ ∃ d, ix.documents.find? id = some d :=
  Option.isSome_iff_exists

/-- An index is tidy if the function that its terms are is. -/
theorem isTidy_of_keeps (h : Keeps ix.terms f)
    (hf : ∀ term, (f term).Pairwise fun p q ↦ p.doc < q.doc)
    (hknown : ∀ term, ∀ p ∈ f term, ix.hasDocument p.doc = true)
    (honce : ∀ id d, ix.documents.find? id = some d → d.terms.Nodup)
    (hlisted : ∀ id d, ix.documents.find? id = some d →
      ∀ term, term ∈ d.terms ↔ ∃ p ∈ f term, p.doc = id) : ix.IsTidy := by
  obtain rfl : f = ix.postings := funext fun term ↦ (h.getD_find? term).symm
  exact ⟨⟨hf, hknown⟩, h, honce, hlisted⟩

namespace IsTidy

/-- An index without documents is tidy. -/
theorem empty : Index.empty.IsTidy :=
  isTidy_of_keeps (f := fun _ ↦ []) (fun _ ↦ rfl) (fun _ ↦ .nil) (fun _ ↦ nofun) (fun _ ↦ nofun)
    fun _ ↦ nofun

/-- Whether an index is tidy depends on its terms and documents only. -/
theorem congr (h : ix.IsTidy) (hterms : ix'.terms = ix.terms)
    (hdocuments : ix'.documents = ix.documents) : ix'.IsTidy := by
  refine isTidy_of_keeps (f := ix.postings) (hterms ▸ h.keeps) h.ordered (fun term p hp ↦ ?_)
    (hdocuments ▸ h.agrees.once) (hdocuments ▸ h.agrees.listed)
  rw [hasDocument, hdocuments]
  exact h.known term p hp

theorem publish (h : ix.IsTidy) : ix.publish.IsTidy :=
  h.congr rfl rfl

/-- A document that is not there has no postings. -/
theorem doc_ne (h : ix.IsTidy) (hid : ix.documents.find? id = none) (hp : p ∈ ix.postings term) :
    p.doc ≠ id := by
  rintro rfl
  obtain ⟨d, hd⟩ := hasDocument_iff.1 (h.known term p hp)
  rw [hid] at hd
  cases hd

end IsTidy

/-! ### Taking a document out -/

/-- A document that is not there is retracted by doing nothing. -/
theorem retract_of_none (h : ix.documents.find? id = none) : ix.retract id = .ok ix := by
  rw [retract, h]

/-- One that is there is retracted from the terms that it lists. -/
theorem retract_of_some {d : DocumentEntry} (h : ix.documents.find? id = some d) :
    ix.retract id = (fun terms ↦ { ix with
      terms
      documents := ix.documents.erase id
      tokens := ix.tokens - d.length.toUInt64 }) <$>
        d.terms.foldlM (retractTerm id) ix.terms := by
  rw [retract, h]
  show (do
    let terms ← d.terms.foldlM (retractTerm id) ix.terms
    return { ix with terms, documents := _, tokens := _ } : Except Error Index) = _
  cases d.terms.foldlM (retractTerm id) ix.terms <;> rfl

/-- The postings without a document have those of any other. -/
theorem exists_mem_filter_doc_ne {ps : Postings} {id id' : Bytes} (hne : id ≠ id') :
    (∃ p ∈ ps, p.doc = id') ↔ ∃ p ∈ ps.filter (·.doc ≠ id), p.doc = id' := by
  simp only [List.mem_filter, decide_eq_true_eq]
  constructor
  · rintro ⟨p, hp, rfl⟩
    exact ⟨p, ⟨hp, Ne.symm hne⟩, rfl⟩
  · rintro ⟨p, ⟨hp, -⟩, hdoc⟩
    exact ⟨p, hp, hdoc⟩

/-- What is left of an index if a document that is there is retracted. -/
theorem exists_terms_of_retract {d : DocumentEntry} (hfind : ix.documents.find? id = some d)
    (hok : ix.retract id = .ok ix') : ∃ terms, ix' = { ix with
      terms
      documents := ix.documents.erase id
      tokens := ix.tokens - d.length.toUInt64 } := by
  rw [retract_of_some hfind] at hok
  obtain ⟨terms, -, hterms⟩ := Passes.map_eq_ok_iff.1 hok
  exact ⟨terms, hterms.symm⟩

/-- The documents after one has been retracted. -/
theorem documents_of_retract (hok : ix.retract id = .ok ix') :
    ix'.documents = ix.documents.erase id := by
  rcases hfind : ix.documents.find? id with _ | d
  · rw [retract_of_none hfind] at hok
    rw [← Except.ok.inj hok, Dict.erase_of_notMem (Dict.find?_eq_none_iff.1 hfind)]
  · obtain ⟨terms, rfl⟩ := exists_terms_of_retract hfind hok
    rfl

/-- **A document can be retracted from a tidy index**, and takes its postings with it. -/
theorem IsTidy.exists_retract (h : ix.IsTidy) (id : Bytes) :
    ∃ ix', ix.retract id = .ok ix' ∧ ix'.IsTidy ∧
      ∀ term, ix'.postings term = (ix.postings term).filter (·.doc ≠ id) := by
  rcases hfind : ix.documents.find? id with _ | d
  · refine ⟨ix, retract_of_none hfind, h, fun term ↦ (List.filter_eq_self.2 fun p hp ↦ ?_).symm⟩
    exact decide_eq_true (h.doc_ne hfind hp)
  · have hlisted := h.agrees.listed id d hfind
    obtain ⟨terms, hfold, hkeeps⟩ := exists_foldlM_retractTerm h.keeps
      h.ordered (h.agrees.once id d hfind) fun term ↦ (hlisted term).1
    -- the terms that the document does not list have no posting of it
    have hkeeps : Keeps terms fun term ↦ (ix.postings term).filter (·.doc ≠ id) := by
      refine hkeeps.of_partly fun term hterm ↦ List.filter_eq_self.2 fun p hp ↦ ?_
      exact decide_eq_true fun hdoc ↦ hterm ((hlisted term).2 ⟨p, hp, hdoc⟩)
    refine ⟨_, by rw [retract_of_some hfind, hfold]; rfl, ?_, fun term ↦ ?_⟩
    · refine isTidy_of_keeps hkeeps (fun term ↦ (h.ordered term).filter _) ?_ ?_ ?_
      · intro term p hp
        obtain ⟨hp, hne⟩ := List.mem_filter.1 hp
        obtain ⟨e, he⟩ := hasDocument_iff.1 (h.known term p hp)
        exact hasDocument_iff.2
          ⟨e, Dict.find?_erase_eq_some_iff.2 ⟨Ne.symm (of_decide_eq_true hne), he⟩⟩
      · intro id' d' hfind'
        obtain ⟨-, hfind'⟩ := Dict.find?_erase_eq_some_iff.1 hfind'
        exact h.agrees.once id' d' hfind'
      · intro id' d' hfind' term
        obtain ⟨hne, hfind'⟩ := Dict.find?_erase_eq_some_iff.1 hfind'
        rw [h.agrees.listed id' d' hfind' term]
        exact exists_mem_filter_doc_ne hne
    · exact hkeeps.getD_find? term

/-! ### Putting a document in -/

/-- The postings after some terms of a document have been recorded: a posting is the new document's,
for one of them, or it was there before. -/
theorem mem_partly_putPosting {d : AnalyzedDocument} {terms : List Bytes} :
    p ∈ partly f (fun term ↦ putPosting (d.posting term) (f term)) terms term ↔
      term ∈ terms ∧ p = d.posting term ∨ p ∈ f term := by
  rw [partly]
  split
  · rename_i hterm
    rw [mem_putPosting, and_iff_right hterm]
  · rename_i hterm
    simp only [hterm, false_and, false_or]

/-- The documents after one has been recorded. -/
theorem find?_record (ix : Index) (d : AnalyzedDocument) (id : Bytes) :
    (ix.record d).documents.find? id =
      if d.id = id then some d.entry else ix.documents.find? id :=
  Dict.find?_insert _ _ _ _

/-- The terms of a document are listed once. -/
theorem nodup_analyzedTerms (d : AnalyzedDocument) : d.terms.toList.Nodup :=
  (ByteSet.toList_ascending _).imp Bytes.ne_of_lt

namespace IsTidy

variable (h : ix.IsTidy) (d : AnalyzedDocument)

include h

theorem keeps_record : Keeps (ix.record d).terms
    (partly ix.postings (fun term ↦ putPosting (d.posting term) (ix.postings term))
      d.terms.toList) :=
  keeps_foldl_recordTerm h.keeps d (nodup_analyzedTerms d)

/-- A posting is one that was there or the document's own. -/
theorem mem_postings_record : p ∈ (ix.record d).postings term ↔
    term ∈ d.terms.toList ∧ p = d.posting term ∨ p ∈ ix.postings term := by
  have hpostings := (h.keeps_record d).getD_find? term
  rw [postings, hpostings, mem_partly_putPosting]

/-- **A new document can be recorded in a tidy index.** -/
theorem record (hnew : ix.documents.find? d.id = none) : (ix.record d).IsTidy := by
  have hother : ∀ term, ∀ q ∈ ix.postings term, q.doc ≠ d.id := fun _ _ ↦ h.doc_ne hnew
  refine isTidy_of_keeps (h.keeps_record d) (fun term ↦ ?_) (fun term p hp ↦ hasDocument_iff.2 ?_)
    (fun id' e he ↦ ?_) fun id' e he term ↦ ?_
  · rw [partly]
    split
    · exact putPosting_ascending (h.ordered term) (hother term)
    · exact h.ordered term
  · rw [find?_record]
    rcases mem_partly_putPosting.1 hp with ⟨-, rfl⟩ | hp
    · exact ⟨d.entry, if_pos rfl⟩
    · rw [if_neg (Ne.symm (hother term p hp))]
      exact hasDocument_iff.1 (h.known term p hp)
  · rw [find?_record] at he
    split at he
    · rw [← Option.some.inj he]
      exact nodup_analyzedTerms d
    · exact h.agrees.once id' e he
  · rw [find?_record] at he
    simp only [mem_partly_putPosting]
    split at he
    · rename_i hid
      subst hid
      rw [← Option.some.inj he]
      constructor
      · exact fun hterm ↦ ⟨d.posting term, .inl ⟨hterm, rfl⟩, rfl⟩
      · rintro ⟨p, ⟨hterm, -⟩ | hp, hdoc⟩
        · exact hterm
        · exact absurd hdoc (hother term p hp)
    · rename_i hne
      rw [h.agrees.listed id' e he term]
      constructor
      · rintro ⟨p, hp, hdoc⟩
        exact ⟨p, .inr hp, hdoc⟩
      · rintro ⟨p, ⟨-, rfl⟩ | hp, hdoc⟩
        · exact absurd hdoc hne
        · exact ⟨p, hp, hdoc⟩

/-- **A document can be replaced or added.** Its postings are then its own, and those of the others
are what they were. -/
theorem exists_replace : ∃ ix', ix.replace d = .ok ix' ∧ ix'.IsTidy ∧ ∀ term p,
    p ∈ ix'.postings term ↔
      term ∈ d.terms.toList ∧ p = d.posting term ∨ p ∈ ix.postings term ∧ p.doc ≠ d.id := by
  obtain ⟨ix', hretract, htidy, hpostings⟩ := h.exists_retract d.id
  have hnew : ix'.documents.find? d.id = none := by
    rw [documents_of_retract hretract, Dict.find?_erase, if_pos rfl]
  refine ⟨ix'.record d, ?_, htidy.record d hnew, fun term p ↦ ?_⟩
  · rw [replace, hretract]
    rfl
  · rw [htidy.mem_postings_record d, hpostings, List.mem_filter, decide_eq_true_iff]

end IsTidy

/-! ### What else is kept -/

/-- A property of indexes that is kept when documents are put in and taken out, as long as the
documents are admitted and their identifiers are free. -/
structure IsKept (a : Analyzer) (admits : Document → Prop) (isFree : Bytes → Prop)
    (P : Index → Prop) : Prop where
  publish : ∀ ix, P ix → P ix.publish
  retract : ∀ ix ix' id, isFree id → ix.IsTidy → P ix → ix.retract id = .ok ix' → P ix'
  record : ∀ ix d, admits d → ix.IsTidy → P ix → ix.documents.find? d.id = none →
    P (ix.record ⟨d.id, Corpus.fieldTokens a d.fields⟩)
  free : ∀ d, admits d → isFree d.id

section Kept

variable {P Q : Index → Prop} {admits : Document → Prop} {isFree : Bytes → Prop}

/-- Two properties that are kept are kept together. -/
theorem IsKept.and (h : IsKept a admits isFree P) (h' : IsKept a admits isFree Q) :
    IsKept a admits isFree fun ix ↦ P ix ∧ Q ix where
  publish ix hix := ⟨h.publish ix hix.1, h'.publish ix hix.2⟩
  retract ix ix' id hid htidy hix hok :=
    ⟨h.retract ix ix' id hid htidy hix.1 hok, h'.retract ix ix' id hid htidy hix.2 hok⟩
  record ix d hd htidy hix hnew :=
    ⟨h.record ix d hd htidy hix.1 hnew, h'.record ix d hd htidy hix.2 hnew⟩
  free := h.free

namespace IsTidy

/-- A document that is admitted can be replaced or added. -/
theorem exists_replace_kept (h : ix.IsTidy) (hkept : IsKept a admits isFree P) (hP : P ix)
    {d : Document} (hd : admits d) :
    ∃ ix', ix.replace ⟨d.id, Corpus.fieldTokens a d.fields⟩ = .ok ix' ∧ ix'.IsTidy ∧ P ix' := by
  obtain ⟨ix', hretract, htidy, -⟩ := h.exists_retract d.id
  have hnew : ix'.documents.find? d.id = none := by
    rw [documents_of_retract hretract, Dict.find?_erase, if_pos rfl]
  have hP' : P ix' := hkept.retract ix ix' d.id (hkept.free d hd) h hP hretract
  refine ⟨_, ?_, htidy.record _ hnew, hkept.record ix' d hd htidy hP' hnew⟩
  rw [replace, hretract]
  rfl

/-- **A batch of documents can be added.** -/
theorem exists_add (h : ix.IsTidy) (hkept : IsKept a admits isFree P) (hP : P ix)
    {batch : List Document} (hpasses : ∀ d ∈ batch, d.CanBeAdded) (hbatch : ∀ d ∈ batch, admits d) :
    ∃ ix', ix.add a batch = .ok ix' ∧ ix'.IsTidy ∧ P ix' := by
  obtain ⟨ix', hfold, htidy, hP'⟩ : ∃ ix', (batch.map fun d ↦
      AnalyzedDocument.mk d.id (Corpus.fieldTokens a d.fields)).foldlM replace ix = .ok ix' ∧
        ix'.IsTidy ∧ P ix' := by
    refine Passes.exists_foldlM (fun _ ix ↦ IsTidy ix ∧ P ix)
      (fun before x after ix heq hix ↦ ?_) ⟨h, hP⟩
    have hx : x ∈ batch.map fun d ↦ AnalyzedDocument.mk d.id (Corpus.fieldTokens a d.fields) :=
      heq ▸ List.mem_append_right _ List.mem_cons_self
    obtain ⟨d, hd, rfl⟩ := List.mem_map.1 hx
    exact hix.1.exists_replace_kept hkept hix.2 (hbatch d hd)
  refine ⟨ix'.publish, ?_, htidy.publish, hkept.publish ix' hP'⟩
  rw [add_eq hpasses, hfold]
  rfl

/-- **A document can be removed**, and its postings go with it. -/
theorem exists_remove (h : ix.IsTidy) (hkept : IsKept a admits isFree P) (hP : P ix) (id : Bytes)
    (hid : isFree id) : ∃ ix', ix.change a (.remove id) = .ok ix' ∧ ix'.IsTidy ∧ P ix' ∧
      ∀ term, ix'.postings term = (ix.postings term).filter (·.doc ≠ id) := by
  obtain ⟨ix', hretract, htidy, hpostings⟩ := h.exists_retract id
  have hP' : P ix' := hkept.retract ix ix' id hid h hP hretract
  rcases hknown : ix.hasDocument id with _ | _
  · rw [retract_of_none (find?_of_hasDocument_eq_false hknown)] at hretract
    rw [← Except.ok.inj hretract] at hpostings
    exact ⟨ix, change_remove_of_not a hknown, h, hP, hpostings⟩
  · refine ⟨ix'.publish, ?_, htidy.publish, hkept.publish ix' hP', hpostings⟩
    rw [change_remove a hknown, hretract]
    rfl

end IsTidy

end Kept

end Index

end Concordance
