import Concordance.Proofs.Passes
import Concordance.Proofs.TermPostings
import Concordance.Proofs.Tokens
import Concordance.Text.Table

/-!
# An index is about its corpus and nothing else

Retracting a document from the index of a corpus gives the index of the corpus without it
(`retract_index`), recording a new one gives the index of the corpus with it (`record_index`). What
can be said of an index and a corpus holds throughout a history if it follows each document that is
put in and each that is taken out (`Index.IsFollowed`), and so every index of a history is the one
of the corpus at that time, version aside (`inStep_course`): however documents were added, replaced,
removed and brought back, nothing is left behind and nothing is missing.

Each change only uses that the numbers of tokens do not wrap around: the number for all documents
has 64 bits and is kept modulo that, but it is brought up to date by numbers of 32 bits.
-/

namespace Concordance

namespace Index

variable {a : Analyzer} {c : Corpus} {id : Bytes} {fields : Dict Bytes} {version : UInt64}

/-! ### Without a document -/

/-- The terms of a document stand in their list once. -/
theorem nodup_terms (a : Analyzer) (fields : Dict Bytes) : (Corpus.terms a fields).toList.Nodup :=
  (ByteSet.toList_ascending _).imp Bytes.ne_of_lt

/-- The terms after those of a document have been taken out. -/
theorem foldlM_retractTerm (hfind : c.find? id = some fields) {terms : Dict Postings}
    (h : Keeps terms (c.postings a)) :
    ∃ terms', (Corpus.terms a fields).toList.foldlM (retractTerm id) terms = .ok terms' ∧
      Keeps terms' (Corpus.postings a (c.erase id)) := by
  have hlisted : ∀ term ∈ (Corpus.terms a fields).toList, ∃ p ∈ c.postings a term, p.doc = id :=
    fun term hterm ↦ ⟨⟨id, _, _⟩,
      Corpus.mem_postings.2 ⟨fields, hfind, Corpus.posting?_eq_some_iff.2 ⟨rfl, hterm⟩⟩, rfl⟩
  obtain ⟨terms', hfold, hkeeps⟩ := exists_foldlM_retractTerm h (Corpus.postings_ascending a c)
    (nodup_terms a fields) hlisted
  simp only [← postings_erase] at hkeeps
  exact ⟨terms', hfold, hkeeps.of_partly fun term hterm ↦ postings_erase_of_notMem hfind hterm⟩

/-- **Retracting a document succeeds, and leaves the index of the corpus without it.** -/
theorem retract_index (hc : c.Fits a) (version : UInt64) (id : Bytes) :
    (c.index a version).retract id = .ok (Corpus.index a (c.erase id) version) := by
  have hentry : (c.index a version).documents.find? id =
      (c.find? id).map fun fields ↦ Corpus.entry a fields := Dict.find?_mapValues _ _ _
  rw [retract, hentry]
  rcases hfind : c.find? id with _ | fields
  · rw [Dict.erase_of_notMem (Dict.find?_eq_none_iff.1 hfind)]
    rfl
  · -- what the pass leaves are the postings of the other documents, and that tells the terms
    obtain ⟨terms, hfold, hkeeps⟩ := foldlM_retractTerm hfind (keeps_index a c version)
    have hterms : terms = (Corpus.index a (c.erase id) version).terms :=
      hkeeps.unique (keeps_index a _ version)
    have hdocuments : (c.index a version).documents.erase id =
        (Corpus.index a (c.erase id) version).documents := (Dict.mapValues_erase _ c id).symm
    have hsize : Corpus.size a fields < 2 ^ 32 := hc fields (Dict.mem_values_iff.2 ⟨id, hfind⟩)
    have htokens : (c.index a version).tokens - (Corpus.entry a fields).length.toUInt64 =
        (Corpus.index a (c.erase id) version).tokens := by
      show Nat.toUInt64 _ - _ = Nat.toUInt64 _
      rw [Corpus.length_entry, toUInt32_toUInt64_of_lt hsize, Dict.sum_values _ hfind, Nat.add_comm,
        toUInt64_add, UInt64.add_sub_cancel]
    show (do
      let terms ← (Corpus.terms a fields).toList.foldlM (retractTerm id) _
      return { c.index a version with
        terms, documents := _, tokens := _ } : Except Error Index) = _
    rw [hfold, hterms]
    show Except.ok (ε := Error) (Index.mk _ _ _ _) = _
    rw [hdocuments, htokens]
    rfl

/-! ### With a document -/

/-- The terms after those of a new document have been recorded. -/
theorem foldl_recordTerm (hnew : id ∉ c.keys) {terms : Dict Postings}
    (h : Keeps terms (c.postings a)) :
    Keeps ((Corpus.terms a fields).toList.foldl
        (recordTerm ⟨id, Corpus.fieldTokens a fields⟩) terms)
      (Corpus.postings a (c.insert id fields)) := by
  refine (keeps_foldl_recordTerm h _ (nodup_terms a fields)).congr fun term ↦ ?_
  by_cases hterm : term ∈ (Corpus.terms a fields).toList
  · rw [postings_insert hnew hterm]
    exact if_pos hterm
  · rw [postings_insert_of_notMem hnew hterm]
    exact if_neg hterm

/-- **Recording a new document gives the index of the corpus with it.** -/
theorem record_index (hnew : id ∉ c.keys) (hsize : Corpus.size a fields < 2 ^ 32)
    (version : UInt64) :
    (c.index a version).record ⟨id, Corpus.fieldTokens a fields⟩ =
      Corpus.index a (c.insert id fields) version := by
  have hterms : (Corpus.terms a fields).toList.foldl
        (recordTerm ⟨id, Corpus.fieldTokens a fields⟩) (c.index a version).terms =
      (Corpus.index a (c.insert id fields) version).terms :=
    (foldl_recordTerm hnew (keeps_index a c version)).unique (keeps_index a _ version)
  have hdocuments : (c.index a version).documents.insert id (Corpus.entry a fields) =
      (Corpus.index a (c.insert id fields) version).documents :=
    (Dict.mapValues_insert (fun _ ↦ Corpus.entry a) c id fields).symm
  -- the number of all tokens wraps around, but the length of one document does not
  have htokens : (c.index a version).tokens + (Corpus.entry a fields).length.toUInt64 =
      (Corpus.index a (c.insert id fields) version).tokens := by
    have hfind : (c.insert id fields).find? id = some fields := by
      rw [Dict.find?_insert, if_pos rfl]
    show Nat.toUInt64 _ + _ = Nat.toUInt64 _
    rw [Dict.sum_values _ hfind, Dict.erase_insert_of_notMem hnew, Corpus.length_entry,
      toUInt32_toUInt64_of_lt hsize, Nat.add_comm, toUInt64_add]
  rw [record, Corpus.entry_eq, Corpus.terms_eq, hterms, hdocuments, htokens]
  rfl

/-- Replacing or adding a document, at once. -/
theorem replace_index (hc : c.Fits a) (hsize : Corpus.size a fields < 2 ^ 32) (version : UInt64)
    (id : Bytes) : (c.index a version).replace ⟨id, Corpus.fieldTokens a fields⟩ =
      .ok (Corpus.index a (c.insert id fields) version) := by
  show (do
    let ix ← (c.index a version).retract id
    return ix.record ⟨id, Corpus.fieldTokens a fields⟩ : Except Error Index) = _
  rw [retract_index hc, ← Dict.insert_erase]
  show Except.ok (ε := Error) (Index.record _ _) = _
  rw [record_index (Dict.notMem_keys_erase c id) hsize]

end Index

/-! ### Batches -/

section Batch

variable {a : Analyzer}

/-- A field with a name and a text that passes is analyzed. -/
theorem Document.analyzeField_eq {id : Bytes} {f : Bytes × Bytes} (hname : f.1 ≠ [])
    (htext : Utf8.passes f.2 = true) : analyzeField a id f = .ok (f.1, a.tokens f.2 f.1) := by
  rw [analyzeField, if_neg fun hnil ↦ hname (List.isEmpty_iff.1 hnil), if_neg (by simp [htext])]

/-- **A document that can be added is analyzed.** -/
theorem Document.analyze_eq {d : Document} (h : d.CanBeAdded) :
    d.analyze a = .ok ⟨d.id, Corpus.fieldTokens a d.fields⟩ := by
  obtain ⟨hid, hfields, hall⟩ := h
  have hmap : d.fields.entries.mapM (analyzeField a d.id) = .ok (Corpus.fieldTokens a d.fields) :=
    Passes.mapM_eq_ok fun f hf ↦ analyzeField_eq (hall f hf).1 (hall f hf).2
  have hsome : ¬ d.fields.isEmpty = true := fun hnil ↦ hfields (List.isEmpty_iff.1 hnil)
  rw [analyze, if_neg fun hnil ↦ hid (List.isEmpty_iff.1 hnil), if_neg hsome, hmap]
  rfl

/-- A field is analyzed exactly if it has a name and its text passes. -/
theorem Document.exists_analyzeField_iff {id : Bytes} {f : Bytes × Bytes} :
    (∃ tokens, analyzeField a id f = .ok tokens) ↔ f.1 ≠ [] ∧ Utf8.passes f.2 = true := by
  constructor
  · rintro ⟨tokens, h⟩
    rw [analyzeField] at h
    split at h
    · cases h
    · rename_i hname
      split at h
      · cases h
      · rename_i htext
        exact ⟨fun hnil ↦ hname (List.isEmpty_iff.2 hnil), by simpa using htext⟩
  · rintro ⟨hname, htext⟩
    exact ⟨_, analyzeField_eq hname htext⟩

/-- The fault of a document whose fields are not all analyzed, which is that of the first one. -/
theorem Document.hasFault_of_mapM {d : Document} (hid : d.id ≠ []) {e : Error}
    (h : d.fields.entries.mapM (analyzeField a d.id) = .error e) :
    ∃ fault, d.HasFault Utf8.passes fault ∧ e = .ingest fault := by
  obtain ⟨before, ⟨name, text⟩, after, heq, hbefore, herror⟩ := Passes.mapM_eq_error_iff.1 h
  have hbefore : ∀ f ∈ before, f.1 ≠ [] ∧ Utf8.passes f.2 = true :=
    fun f hf ↦ exists_analyzeField_iff.1 (hbefore f hf)
  have hascending := d.fields.ascending
  rw [heq, List.pairwise_append] at hascending
  rw [analyzeField] at herror
  split at herror
  · rename_i hname
    have hkey : name ∈ d.fields.keys :=
      List.mem_map.2 ⟨(name, text), heq ▸ List.mem_append_right _ List.mem_cons_self, rfl⟩
    have hname : name = [] := List.isEmpty_iff.1 hname
    exact ⟨_, .emptyFieldName hid (hname ▸ hkey), (Except.error.inj herror).symm⟩
  · rename_i hname
    split at herror
    · rename_i htext
      refine ⟨_, .illFormedText hid (fun hnil ↦ ?_) heq (fun f hf ↦ (hbefore f hf).2)
        (by simpa using htext), (Except.error.inj herror).symm⟩
      -- an empty name is smaller than that of this field, and those before it are not empty
      obtain ⟨f, hf, hkey⟩ := List.mem_map.1 hnil
      rw [heq] at hf
      rcases List.mem_append.1 hf with hf | hf
      · exact (hbefore f hf).1 hkey
      · rcases List.mem_cons.1 hf with rfl | hf
        · exact hname (List.isEmpty_iff.2 hkey)
        · have hlt : name < f.1 := (List.pairwise_cons.1 hascending.2.1).1 f hf
          rw [hkey] at hlt
          exact absurd hlt (List.not_lt_nil name)
    · cases herror

/-- **Any other document is refused, for what is wrong with it.** -/
theorem Document.analyze_error {d : Document} (h : ¬ d.CanBeAdded) :
    ∃ fault, d.HasFault Utf8.passes fault ∧ d.analyze a = .error (.ingest fault) := by
  rw [analyze]
  split
  · rename_i hid
    exact ⟨_, .emptyId (List.isEmpty_iff.1 hid), rfl⟩
  · rename_i hid
    have hid : d.id ≠ [] := fun hnil ↦ hid (List.isEmpty_iff.2 hnil)
    split
    · rename_i hfields
      exact ⟨_, .noFields hid (List.isEmpty_iff.1 hfields), rfl⟩
    · rename_i hfields
      rcases hmap : d.fields.entries.mapM (analyzeField a d.id) with e | fields
      · obtain ⟨fault, hfault, rfl⟩ := hasFault_of_mapM hid hmap
        exact ⟨fault, hfault, rfl⟩
      · -- all its fields are analyzed, so the document can be added
        refine absurd ⟨hid, fun hnil ↦ hfields (List.isEmpty_iff.2 hnil), fun f hf ↦ ?_⟩ h
        obtain ⟨tokens, -, htokens⟩ :=
          Passes.exists_of_mem_forall₂ (Passes.mapM_eq_ok_iff.1 hmap) hf
        exact exists_analyzeField_iff.1 ⟨tokens, htokens⟩

/-- A batch is analyzed up to the first document that cannot be added, and refused for it. -/
theorem Document.analyzeAll_error {before : List Document} {d : Document} (after : List Document)
    (hbefore : ∀ d' ∈ before, d'.CanBeAdded) (h : ¬ d.CanBeAdded) :
    ∃ fault, d.HasFault Utf8.passes fault ∧
      (before ++ d :: after).mapM (analyze a) = .error (.ingest fault) := by
  obtain ⟨fault, hfault, herror⟩ := analyze_error (a := a) h
  exact ⟨fault, hfault, Passes.mapM_eq_error_iff.2
    ⟨before, d, after, rfl, fun d' hd' ↦ ⟨_, analyze_eq (hbefore d' hd')⟩, herror⟩⟩

/-- A batch with a document that cannot be added has a first one. -/
theorem Document.exists_first {batch : List Document} (h : ¬ ∀ d ∈ batch, d.CanBeAdded) :
    ∃ before d after, batch = before ++ d :: after ∧ (∀ d' ∈ before, d'.CanBeAdded) ∧
      ¬ d.CanBeAdded := by
  induction batch with
  | nil => exact absurd (List.forall_mem_nil _) h
  | cons d batch ih =>
    by_cases hd : d.CanBeAdded
    · obtain ⟨before, d', after, rfl, hbefore, hd'⟩ :=
        ih fun hall ↦ h (List.forall_mem_cons.2 ⟨hd, hall⟩)
      exact ⟨d :: before, d', after, rfl, List.forall_mem_cons.2 ⟨hd, hbefore⟩, hd'⟩
    · exact ⟨[], d, batch, rfl, List.forall_mem_nil _, hd⟩

/-- A batch with a document that cannot be added is refused, and it is the document that is at
fault. -/
theorem Index.add_error {batch : List Document} (h : ¬ ∀ d ∈ batch, d.CanBeAdded) (ix : Index) :
    ∃ fault, ix.add a batch = .error (.ingest fault) := by
  obtain ⟨before, d, after, rfl, hbefore, hd⟩ := Document.exists_first h
  obtain ⟨fault, -, herror⟩ := Document.analyzeAll_error (a := a) after hbefore hd
  exact ⟨fault, by rw [add, herror]; rfl⟩

/-- The documents of a batch that is added can be added. -/
theorem Index.canBeAdded_of_add {ix ix' : Index} {batch : List Document}
    (hadd : ix.add a batch = .ok ix') : ∀ d ∈ batch, d.CanBeAdded := by
  by_contra hill
  obtain ⟨fault, herror⟩ := add_error (a := a) hill ix
  rw [herror] at hadd
  cases hadd

/-- A batch of documents that can be added is put in document by document, as one new version. -/
theorem Index.add_eq {batch : List Document} (hpasses : ∀ d ∈ batch, d.CanBeAdded) (ix : Index) :
    ix.add a batch = Index.publish <$>
      (batch.map fun d ↦ AnalyzedDocument.mk d.id (Corpus.fieldTokens a d.fields)).foldlM
        replace ix := by
  rw [add, Passes.mapM_eq_ok fun d hd ↦ Document.analyze_eq (hpasses d hd)]
  exact bind_pure_comp (m := Except Error) Index.publish _

end Batch

/-! ### Changes -/

section Remove

variable {ix : Index} {id : Bytes}

/-- The change that removes a document which is there. -/
theorem Index.change_remove (a : Analyzer) (hid : ix.hasDocument id = true) :
    ix.change a (.remove id) = Index.publish <$> ix.retract id := by
  have hchange : ix.change a (.remove id) = do
      let ix' ← ix.remove id
      return ix'.getD ix := rfl
  rw [hchange, remove, if_pos hid]
  cases ix.retract id <;> rfl

/-- The change that removes a document which is not there changes nothing. -/
theorem Index.change_remove_of_not (a : Analyzer) (hid : ix.hasDocument id = false) :
    ix.change a (.remove id) = .ok ix := by
  have hchange : ix.change a (.remove id) = do
      let ix' ← ix.remove id
      return ix'.getD ix := rfl
  rw [hchange, remove, hid]
  rfl

/-- Where a document is not there, there is nothing to find. -/
theorem Index.find?_of_hasDocument_eq_false (hid : ix.hasDocument id = false) :
    ix.documents.find? id = none := by
  rw [hasDocument, Dict.contains] at hid
  simpa using hid

end Remove

/-! ### What every change keeps -/

/-- The documents that a move puts in. -/
def Move.added : Move → List Document
  | add batch => batch
  | _ => []

namespace Index

/-- A relation between indexes and corpora that every change keeps: it holds where there are no
documents, publishing an index does not matter to it, and it follows each admitted document that is
put in and each that is taken out, neither of which fails. -/
structure IsFollowed (a : Analyzer) (admits : Document → Prop) (R : Index → Corpus → Prop) :
    Prop where
  empty : ∀ version, R ⟨∅, ∅, 0, version⟩ ∅
  publish : ∀ ix c, R ix c → R ix.publish c
  replace : ∀ ix c, R ix c → ∀ d : Document, admits d → ∃ ix',
    ix.replace ⟨d.id, Corpus.fieldTokens a d.fields⟩ = .ok ix' ∧ R ix' (c.insert d.id d.fields)
  retract : ∀ ix c, R ix c → ∀ id, ∃ ix', ix.retract id = .ok ix' ∧ R ix' (c.erase id)

namespace IsFollowed

variable {a : Analyzer} {admits : Document → Prop} {R : Index → Corpus → Prop} {ix : Index}
  {c : Corpus} (h : IsFollowed a admits R)

include h

/-- A batch of documents is put in, the later ones over the earlier. -/
theorem exists_foldlM_replace {batch : List Document} (hbatch : ∀ d ∈ batch, admits d)
    (hR : R ix c) : ∃ ix', (batch.map fun d ↦
      AnalyzedDocument.mk d.id (Corpus.fieldTokens a d.fields)).foldlM Index.replace ix = .ok ix' ∧
        R ix' (batch.foldl (fun c d ↦ c.insert d.id d.fields) c) := by
  induction batch generalizing ix c with
  | nil => exact ⟨ix, rfl, hR⟩
  | cons d batch ih =>
    obtain ⟨hd, hbatch⟩ := List.forall_mem_cons.1 hbatch
    obtain ⟨next, hreplace, hnext⟩ := h.replace ix c hR d hd
    obtain ⟨ix', hrest, hix'⟩ := ih hbatch hnext
    refine ⟨ix', ?_, hix'⟩
    rw [List.map_cons, List.foldlM_cons, hreplace]
    exact hrest

/-- A batch of documents that can be added is added. -/
theorem exists_add {batch : List Document} (hpasses : ∀ d ∈ batch, d.CanBeAdded)
    (hbatch : ∀ d ∈ batch, admits d) (hR : R ix c) :
    ∃ ix', ix.add a batch = .ok ix' ∧ R ix' (batch.foldl (fun c d ↦ c.insert d.id d.fields) c) := by
  obtain ⟨ix', hok, hix'⟩ := h.exists_foldlM_replace hbatch hR
  refine ⟨ix'.publish, ?_, h.publish ix' _ hix'⟩
  rw [add_eq hpasses, hok]
  rfl

/-- A document is removed, if it is there. -/
theorem exists_remove (hR : R ix c) (id : Bytes) :
    ∃ ix', ix.change a (.remove id) = .ok ix' ∧ R ix' (c.erase id) := by
  obtain ⟨ix', hok, hix'⟩ := h.retract ix c hR id
  rcases hid : ix.hasDocument id with _ | _
  · -- there is no such document, in the index or in the corpus
    rw [Index.retract, find?_of_hasDocument_eq_false hid] at hok
    exact ⟨ix, change_remove_of_not a hid, Except.ok.inj hok ▸ hix'⟩
  · refine ⟨ix'.publish, ?_, h.publish ix' _ hix'⟩
    rw [change_remove a hid, hok]
    rfl

/-- **A move keeps the relation between an index and its corpus**, and it is never the index that is
at fault. -/
theorem after {past : List Index} {corpora : List Corpus} (hpast : List.Forall₂ R past corpora)
    {m : Move} (hm : ∀ d ∈ m.added, admits d) :
    R ((past.headD .empty).after a (m.change past)).1 (m.corpus corpora) ∧
      ∀ fault, ((past.headD .empty).after a (m.change past)).2 ≠ some (.index fault) := by
  have hlatest : R (past.headD .empty) (corpora.headD ∅) := Passes.forall₂_headD hpast (h.empty 0)
  -- a move that succeeds leads to what its index does, and has no fault
  have hok : ∀ {ix : Index} {c : Corpus},
      (past.headD .empty).change a (m.change past) = .ok ix → R ix c →
      R ((past.headD .empty).after a (m.change past)).1 c ∧
        ∀ fault, ((past.headD .empty).after a (m.change past)).2 ≠ some (.index fault) := by
    intro ix c hchange hix
    rw [Index.after, hchange]
    exact ⟨hix, nofun⟩
  cases m with
  | add batch =>
    by_cases hpasses : ∀ d ∈ batch, d.CanBeAdded
    · obtain ⟨ix, hadd, hix⟩ := h.exists_add hpasses hm hlatest
      rw [Move.corpus, if_pos hpasses]
      exact hok hadd hix
    · obtain ⟨fault, hadd⟩ := add_error (a := a) hpasses (past.headD .empty)
      have hchange : (past.headD .empty).change a (.add batch) = .error (.ingest fault) := hadd
      rw [Move.corpus, if_neg hpasses, Move.change, Index.after, hchange]
      exact ⟨hlatest, fun fault hf ↦ Error.noConfusion (Option.some.inj hf)⟩
  | remove id =>
    obtain ⟨ix, hremove, hix⟩ := h.exists_remove hlatest id
    exact hok hremove hix
  | clear => exact hok rfl (h.empty _)
  | rewind n => exact hok rfl (Passes.forall₂_getD hpast (h.empty 0) n)

/-- Throughout a history the relation holds between the indexes and the corpora. -/
theorem course {history : List Move} (hhistory : ∀ m ∈ history, ∀ d ∈ m.added, admits d) :
    List.Forall₂ R (Index.course a history) (Corpus.course history) := by
  induction history with
  | nil => exact .cons (h.empty 0) .nil
  | cons m earlier ih =>
    obtain ⟨hm, hearlier⟩ := List.forall_mem_cons.1 hhistory
    exact .cons (h.after (ih hearlier) hm).1 (ih hearlier)

/-- **It holds at the end of any history.** -/
theorem atEnd {history : List Move} (hhistory : ∀ m ∈ history, ∀ d ∈ m.added, admits d) :
    R (Index.atEnd a history) (Corpus.atEnd history) :=
  Passes.forall₂_headD (h.course hhistory) (h.empty 0)

end IsFollowed

end Index

/-! ### Indexes in step -/

/-- An index that is in step with a corpus: it is the index of the corpus, which it can count. -/
def InStep (a : Analyzer) (ix : Index) (c : Corpus) : Prop :=
  ix = c.index a ix.version ∧ c.Fits a

section

variable {a : Analyzer} {c : Corpus}

theorem Move.fits_iff {m : Move} : m.Fits a ↔ ∀ d ∈ m.added, Corpus.size a d.fields < 2 ^ 32 := by
  cases m <;> simp [Fits, added]

/-- A corpus stays countable with one more document that is. -/
theorem Corpus.Fits.insert (hc : c.Fits a) (id : Bytes) {fields : Dict Bytes}
    (hsize : size a fields < 2 ^ 32) : Fits a (c.insert id fields) := by
  intro fields' hfields
  obtain ⟨id', hfind⟩ := Dict.mem_values_iff.1 hfields
  rw [Dict.find?_insert] at hfind
  split at hfind
  · rwa [← Option.some.inj hfind]
  · exact hc fields' (Dict.mem_values_iff.2 ⟨id', hfind⟩)

/-- It does with one less. -/
theorem Corpus.Fits.erase (hc : c.Fits a) (id : Bytes) : Fits a (c.erase id) := by
  intro fields hfields
  obtain ⟨id', hfind⟩ := Dict.mem_values_iff.1 hfields
  exact hc fields (Dict.mem_values_iff.2 ⟨id', (Dict.find?_erase_eq_some_iff.1 hfind).2⟩)

/-- Every change keeps an index in step with its corpus, if the new documents can be counted. -/
theorem isFollowed_inStep (a : Analyzer) :
    Index.IsFollowed a (fun d ↦ Corpus.size a d.fields < 2 ^ 32) (InStep a) where
  empty _ := ⟨rfl, fun _ hmem ↦ absurd hmem List.not_mem_nil⟩
  publish _ _ h := ⟨congrArg Index.publish h.1, h.2⟩
  replace ix c h d hd := by
    refine ⟨Corpus.index a (c.insert d.id d.fields) ix.version, ?_, rfl, h.2.insert d.id hd⟩
    rw [h.1]
    exact Index.replace_index h.2 hd _ d.id
  retract ix c h id := by
    refine ⟨Corpus.index a (c.erase id) ix.version, ?_, rfl, h.2.erase id⟩
    rw [h.1]
    exact Index.retract_index h.2 _ id

end

/-- **A move keeps the index in step with its corpus**, and it is never the index that is at
fault. -/
theorem inStep_after {a : Analyzer} {past : List Index} {corpora : List Corpus}
    (h : List.Forall₂ (InStep a) past corpora) {m : Move} (hm : m.Fits a) :
    InStep a ((past.headD .empty).after a (m.change past)).1 (m.corpus corpora) ∧
      ∀ fault, ((past.headD .empty).after a (m.change past)).2 ≠ some (.index fault) :=
  (isFollowed_inStep a).after h (Move.fits_iff.1 hm)

/-- **Throughout a history the indexes are those of the corpora.** -/
theorem inStep_course {a : Analyzer} {history : List Move} (h : ∀ m ∈ history, m.Fits a) :
    List.Forall₂ (InStep a) (Index.course a history) (Corpus.course history) :=
  (isFollowed_inStep a).course fun m hm ↦ Move.fits_iff.1 (h m hm)

/-- So they are at the end. -/
theorem inStep_atEnd {a : Analyzer} {history : List Move} (h : ∀ m ∈ history, m.Fits a) :
    InStep a (Index.atEnd a history) (Corpus.atEnd history) :=
  (isFollowed_inStep a).atEnd fun m hm ↦ Move.fits_iff.1 (h m hm)

/-! ### What an index in step says -/

namespace Corpus

section Describes

variable {a : Analyzer} {c : Corpus}

/-- The postings of the index of a corpus are those of the corpus. -/
theorem postings_index (version : UInt64) (term : Bytes) :
    (c.index a version).postings term = c.postings a term :=
  (Index.keeps_index a c version).getD_find? term

/-- Its entries are those of the documents. -/
theorem find?_documents_index (version : UInt64) (id : Bytes) :
    (c.index a version).documents.find? id = (c.find? id).map (entry a) :=
  Dict.find?_mapValues ..

theorem size_lt_of_find? (hc : c.Fits a) {id : Bytes} {fields : Dict Bytes}
    (hfind : c.find? id = some fields) : size a fields < 2 ^ 32 :=
  hc _ (Dict.mem_values_iff.2 ⟨id, hfind⟩)

/-- What the posting of a document says. -/
theorem eq_of_mem_postings {term : Bytes} {p : Posting} (hp : p ∈ c.postings a term)
    {fields : Dict Bytes} (hfind : c.find? p.doc = some fields) :
    p.fields = hits a term fields ∧ p.frequency = (occurrences a term fields).toUInt32 := by
  obtain ⟨fields', hfind', hposting⟩ := mem_postings.1 hp
  obtain ⟨heq, -⟩ := posting?_eq_some_iff.1 hposting
  rw [Option.some.inj (hfind.symm.trans hfind'), heq]
  exact ⟨rfl, rfl⟩

/-- There is a posting for each document with the term. -/
theorem exists_posting_iff {term id : Bytes} : (∃ p ∈ c.postings a term, p.doc = id) ↔
    ∃ fields, c.find? id = some fields ∧ term ∈ (terms a fields).toList := by
  constructor
  · intro ⟨p, hp, hdoc⟩
    obtain ⟨fields, hfind, hposting⟩ := mem_postings.1 hp
    exact ⟨fields, hdoc ▸ hfind, (posting?_eq_some_iff.1 hposting).2⟩
  · intro ⟨fields, hfind, hterm⟩
    exact ⟨⟨id, _, _⟩, mem_postings.2 ⟨fields, hfind, posting?_eq_some_iff.2 ⟨rfl, hterm⟩⟩, rfl⟩

/-- **The index of a corpus tells the truth about it.** -/
theorem index_describes (hc : c.Fits a) (version : UInt64) :
    c.Describes a (c.index a version) where
  documents id := by
    rw [Index.hasDocument, Dict.contains, find?_documents_index, Option.isSome_map]
    rfl
  lengths id fields e hfind he field := by
    rw [find?_documents_index, hfind] at he
    rw [← Option.some.inj he]
    simp only [entry, Dict.find?_mapValues, Option.map_map]
    refine Option.map_congr fun text htext ↦ ?_
    exact toNat_toUInt32_of_lt ((length_le_size htext).trans_lt (size_lt_of_find? hc hfind))
  listed id fields e hfind he := by
    rw [find?_documents_index, hfind] at he
    rw [← Option.some.inj he]
    exact ⟨ByteSet.toList_ascending _, fun term ↦ mem_terms_iff_occurs⟩
  terms term := by
    have hkeys : (c.index a version).terms.keys = (c.vocabulary a).keys := Dict.keys_mapValues ..
    rw [Index.hasTerm, Dict.contains_iff, hkeys]
    simp only [← mem_terms_iff_occurs]
    exact mem_vocabulary
  postings term ps hps := by
    rw [Index.keeps_index a c version term] at hps
    split at hps
    · cases hps
    · rename_i hne
      rw [← Option.some.inj hps]
      exact ⟨hne, postings_ascending a c term⟩
  docs term id := by
    rw [postings_index]
    simp only [← mem_terms_iff_occurs]
    exact exists_posting_iff
  hits term p hp fields hfind := by
    rw [postings_index] at hp
    rw [(eq_of_mem_postings hp hfind).1]
    refine ⟨hits_ascending a term fields, fun h ↦ ?_⟩
    simp only [← positions_eq a term _ h.field]
    exact mem_hits
  ascending term p hp h hh fields text hfind htext hwords := by
    rw [postings_index] at hp
    rw [(eq_of_mem_postings hp hfind).1] at hh
    obtain ⟨text', htext', hpositions, -⟩ := mem_hits.1 hh
    rw [hpositions, Option.some.inj (htext'.symm.trans htext)]
    exact positions_ascending a term text h.field hwords
  frequency term p hp := by
    rw [postings_index] at hp
    obtain ⟨fields, hfind, -⟩ := mem_postings.1 hp
    obtain ⟨hfields, hfrequency⟩ := eq_of_mem_postings hp hfind
    have hlt : occurrences a term fields < 2 ^ 32 :=
      occurrences_le.trans_lt (size_lt_of_find? hc hfind)
    rw [hfields, hfrequency, toNat_toUInt32_of_lt hlt]
    rfl
  tokens := rfl

end Describes

end Corpus

/-- **The index is a function of the documents that are there.** After any history no move finds
the index at fault, and the index is, version aside, the one that the corpus at that time has,
which says all there is to say about it. -/
theorem Index.atEnd_eq_index (a : Analyzer) {history : List Move} (h : ∀ m ∈ history, m.Fits a) :
    (∀ m : Move, m.Fits a → ∀ fault, failure a history m ≠ some (.index fault)) ∧
      atEnd a history = (Corpus.atEnd history).index a (atEnd a history).version ∧
      (Corpus.atEnd history).Describes a (atEnd a history) := by
  obtain ⟨heq, hfits⟩ := inStep_atEnd h
  refine ⟨fun m hm ↦ (inStep_after (inStep_course h) hm).2, heq, ?_⟩
  have hdescribes := Corpus.index_describes hfits (atEnd a history).version
  rwa [← heq] at hdescribes

/-- A document is added, added anew in a batch with another, removed, and the index of the time
before is taken back. -/
theorem Index.atEnd_eq_index_rewound :
    let a : Analyzer := {}
    let d : Document := ⟨utf8 "1", .ofList [(utf8 "title", utf8 "hat")]⟩
    let e : Document := ⟨utf8 "2", .ofList [(utf8 "title", utf8 "red hat")]⟩
    let history : List Move := [.rewind 1, .remove (utf8 "2"), .add [d, e, d], .add [d]]
    (∀ m ∈ history, m.Fits a) ∧
      (∀ fault, failure a history .clear ≠ some (.index fault)) ∧
      atEnd a history = (Corpus.atEnd history).index a (atEnd a history).version ∧
      (Corpus.atEnd history).Describes a (atEnd a history) := by
  intro a d e history
  have hd : Corpus.size a d.fields < 2 ^ 32 := by decide
  have he : Corpus.size a e.fields < 2 ^ 32 := by decide
  have hone : (Move.add [d]).Fits a := List.forall_mem_singleton.2 hd
  have hbatch : (Move.add [d, e, d]).Fits a := List.forall_mem_cons.2
    ⟨hd, List.forall_mem_cons.2 ⟨he, List.forall_mem_singleton.2 hd⟩⟩
  have hfits : ∀ m ∈ history, m.Fits a := List.forall_mem_cons.2 ⟨trivial,
    List.forall_mem_cons.2 ⟨trivial, List.forall_mem_cons.2
      ⟨hbatch, List.forall_mem_singleton.2 hone⟩⟩⟩
  obtain ⟨hfailure, heq, hdescribes⟩ := atEnd_eq_index a hfits
  exact ⟨hfits, hfailure .clear trivial, heq, hdescribes⟩

end Concordance
