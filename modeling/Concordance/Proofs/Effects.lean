import Concordance.Proofs.RoundTrip
import Concordance.Proofs.Updates

/-!
# What a change does to any index

An index need not be in order to be changed. Whatever the postings are, and whatever its documents
list, a change that succeeds has touched nothing but the documents that it is about: the others
keep their postings (`Gains.others`, `Loses.others`). Of a document that is removed as many postings
have been taken out as it lists terms (`Loses.taken`), and a document that is added has its own
(`Gains.own`). The number of all tokens need not be the right one, but by how much it is wrong stays
the same (`Index.surplus`).

So nothing is assumed of the index here, and the postings that are meant are those that stand in the
way of the document's place, not those that ought to be there.
-/

namespace Concordance

namespace Index

variable {ix ix' : Index} {id term : Bytes} {terms terms' : Dict Postings} {l : List Bytes}

/-- By how much the number of all tokens is ahead of the tokens of the documents. -/
def surplus (ix : Index) : UInt64 :=
  ix.tokens - tokenCount ix.documents

/-! ### Terms -/

/-- The postings of a term after those of one have been replaced. -/
theorem getD_find?_setPostings (terms : Dict Postings) (term term' : Bytes) (ps : Postings) :
    ((setPostings terms term ps).find? term').getD [] =
      if term = term' then ps else (terms.find? term').getD [] := by
  rw [find?_setPostings]
  split
  · rcases ps with _ | ⟨p, ps⟩ <;> rfl
  · rfl

/-- **A term that is retracted** loses a posting of the document. -/
theorem exists_of_retractTerm (hok : retractTerm id terms term = .ok terms') :
    ∃ before p after, (terms.find? term).getD [] = before ++ p :: after ∧ p.doc = id ∧
      terms' = setPostings terms term (before ++ after) := by
  rw [retractTerm, splitAt_eq] at hok
  split at hok
  · rename_i before p after hsplit
    obtain ⟨hbefore, hafter⟩ := Prod.mk.inj hsplit
    split at hok
    · rename_i hdoc
      refine ⟨before, p, after, ?_, hdoc, (Except.ok.inj hok).symm⟩
      rw [← hbefore, ← hafter, List.takeWhile_append_dropWhile]
    · cases hok
  · cases hok

/-- Other documents keep their postings when terms are retracted. -/
theorem filter_foldlM_retractTerm (hok : l.foldlM (retractTerm id) terms = .ok terms')
    (term : Bytes) : ((terms'.find? term).getD []).filter (·.doc ≠ id) =
      ((terms.find? term).getD []).filter (·.doc ≠ id) := by
  refine Passes.inv_of_foldlM (p := fun terms' ↦ ((terms'.find? term).getD []).filter (·.doc ≠ id) =
    ((terms.find? term).getD []).filter (·.doc ≠ id)) (fun x _ s s' hs hx ↦ ?_) rfl hok
  obtain ⟨before, p, after, hsplit, hdoc, rfl⟩ := exists_of_retractTerm hx
  rw [← hs, getD_find?_setPostings]
  split
  · rename_i hterm
    rw [← hterm, hsplit, List.filter_append, List.filter_append,
      List.filter_cons_of_neg (by simpa using hdoc)]
  · rfl

/-- A term loses as many postings as it is retracted. -/
theorem length_foldlM_retractTerm (hok : l.foldlM (retractTerm id) terms = .ok terms')
    (term : Bytes) :
    ((terms'.find? term).getD []).length + l.count term = ((terms.find? term).getD []).length := by
  refine Passes.inv_of_foldlM_done (fun done terms' ↦ ((terms'.find? term).getD []).length +
    done.count term = ((terms.find? term).getD []).length) (fun done x s s' hs hx ↦ ?_) rfl hok
  obtain ⟨before, p, after, hsplit, -, rfl⟩ := exists_of_retractTerm hx
  rw [← hs, getD_find?_setPostings, List.count_append, List.count_singleton]
  split
  · rename_i hterm
    subst hterm
    rw [hsplit]
    simp only [List.length_append, List.length_cons, beq_self_eq_true, if_true]
    omega
  · rename_i hterm
    rw [if_neg (by simpa using hterm), Nat.add_zero]

/-- A posting that is put in is the only one that is new. -/
theorem filter_putPosting (p : Posting) (ps : Postings) :
    (putPosting p ps).filter (·.doc ≠ p.doc) = ps.filter (·.doc ≠ p.doc) := by
  conv_rhs => rw [← List.takeWhile_append_dropWhile (p := fun q ↦ q.doc < p.doc) (l := ps)]
  rw [putPosting, splitAt_eq, List.filter_append, List.filter_append,
    List.filter_cons_of_neg (by simp)]

/-- Other documents keep their postings when terms are recorded. -/
theorem filter_foldl_recordTerm (d : AnalyzedDocument) (l : List Bytes) (terms : Dict Postings)
    (term : Bytes) : (((l.foldl (recordTerm d) terms).find? term).getD []).filter (·.doc ≠ d.id) =
      ((terms.find? term).getD []).filter (·.doc ≠ d.id) := by
  refine Passes.inv_foldl (fun _ (terms' : Dict Postings) ↦
    ((terms'.find? term).getD []).filter (·.doc ≠ d.id) =
      ((terms.find? term).getD []).filter (·.doc ≠ d.id))
    (fun _ x _ (s : Dict Postings) _ hs ↦ ?_) rfl
  rw [← hs, recordTerm_eq, getD_find?_setPostings]
  split
  · rename_i hterm
    rw [← hterm]
    exact filter_putPosting (d.posting x) _
  · rfl

/-- The document has its posting for each of the terms. -/
theorem posting_mem_foldl_recordTerm (d : AnalyzedDocument) (terms : Dict Postings)
    (hterm : term ∈ l) :
    d.posting term ∈ ((l.foldl (recordTerm d) terms).find? term).getD [] := by
  refine Passes.inv_foldl (l := l) (fun done (terms' : Dict Postings) ↦ term ∈ done →
    d.posting term ∈ (terms'.find? term).getD []) (fun done x _ s _ hs hmem ↦ ?_)
    (fun hmem ↦ absurd hmem List.not_mem_nil) hterm
  rw [recordTerm_eq, getD_find?_setPostings]
  split
  · rename_i hx
    rw [hx]
    exact mem_putPosting.2 (.inl rfl)
  · rename_i hx
    rcases List.mem_append.1 hmem with hdone | hx'
    · exact hs hdone
    · exact absurd (List.mem_singleton.1 hx').symm hx

/-! ### Taking a document out -/

theorem version_of_retract (hok : ix.retract id = .ok ix') : ix'.version = ix.version := by
  rcases hfind : ix.documents.find? id with _ | d
  · rw [← Except.ok.inj ((retract_of_none hfind).symm.trans hok)]
  · obtain ⟨terms, rfl⟩ := exists_terms_of_retract hfind hok
    rfl

/-- **What an index loses with a document.** -/
structure Loses (id : Bytes) (ix ix' : Index) : Prop where
  /-- The document is not there any more. -/
  documents : ix'.documents = ix.documents.erase id
  /-- The number of all tokens is as wrong as before. -/
  surplus : ix'.surplus = ix.surplus
  /-- Each term has lost as many postings as the document lists it. -/
  taken : ∀ d, ix.documents.find? id = some d → ∀ term,
    (ix'.postings term).length + d.terms.count term = (ix.postings term).length
  /-- They were postings of the document. -/
  others : ∀ term, (ix'.postings term).filter (·.doc ≠ id) = (ix.postings term).filter (·.doc ≠ id)

/-- **Retracting a document** takes away what the index had of it. -/
theorem loses_of_retract (hok : ix.retract id = .ok ix') : Loses id ix ix' := by
  rcases hfind : ix.documents.find? id with _ | d
  · rw [retract_of_none hfind] at hok
    rw [← Except.ok.inj hok]
    exact ⟨(Dict.erase_of_notMem (Dict.find?_eq_none_iff.1 hfind)).symm, rfl,
      (fun d hd ↦ nomatch hfind.symm.trans hd), fun _ ↦ rfl⟩
  · rw [retract_of_some hfind] at hok
    obtain ⟨terms, hfold, rfl⟩ := Passes.map_eq_ok_iff.1 hok
    refine ⟨rfl, ?_, fun d' hd' term ↦ ?_, filter_foldlM_retractTerm hfold⟩
    · rw [surplus, surplus, tokenCount_eq_add hfind]
      grind
    · rw [← Option.some.inj (hfind.symm.trans hd')]
      exact length_foldlM_retractTerm hfold term

/-! ### Putting documents in -/

/-- What is left of the version and the documents after one has been replaced. -/
theorem documents_of_replace {d : AnalyzedDocument} (hok : ix.replace d = .ok ix') :
    ix'.version = ix.version ∧ ix'.documents = ix.documents.insert d.id d.entry := by
  obtain ⟨mid, hretract, hrecord⟩ := Passes.bind_eq_ok_iff.1 hok
  have hversion := version_of_retract hretract
  rw [← Except.ok.inj hrecord]
  refine ⟨hversion, ?_⟩
  show mid.documents.insert d.id d.entry = _
  rw [documents_of_retract hretract, Dict.insert_erase]

variable {a : Analyzer}

/-- **What an index gains with a batch of documents.** -/
structure Gains (a : Analyzer) (batch : List Document) (ix ix' : Index) : Prop where
  /-- All documents of the batch are there, the later ones over the earlier. -/
  documents : ix'.documents = batch.foldl
    (fun documents d ↦ documents.insert d.id (Corpus.entry a d.fields)) ix.documents
  /-- The number of all tokens is as wrong as before. -/
  surplus : ix'.surplus = ix.surplus
  /-- A document that is not replaced by a later one has its posting for each of its terms. -/
  own : ∀ before d after, batch = before ++ d :: after → d.id ∉ after.map (·.id) →
    ∀ term p, Corpus.posting? a term d.id d.fields = some p → p ∈ ix'.postings term
  /-- And documents that are not of the batch keep theirs. -/
  others : ∀ term, (ix'.postings term).filter (·.doc ∉ batch.map (·.id)) =
    (ix.postings term).filter (·.doc ∉ batch.map (·.id))

/-- A batch without documents changes nothing. -/
theorem Gains.refl (a : Analyzer) (ix : Index) : Gains a [] ix ix where
  documents := rfl
  surplus := rfl
  own before d after heq := absurd heq.symm (by simp)
  others _ := rfl

/-- **Replacing or adding one document.** -/
theorem gains_of_replace {d : Document}
    (hok : ix.replace ⟨d.id, Corpus.fieldTokens a d.fields⟩ = .ok ix') : Gains a [d] ix ix' := by
  obtain ⟨mid, hretract, hrecord⟩ := Passes.bind_eq_ok_iff.1 hok
  obtain ⟨hdocuments, hsurplus, -, hothers⟩ := loses_of_retract hretract
  rw [← Except.ok.inj hrecord]
  refine ⟨?_, ?_, ?_, fun term ↦ ?_⟩
  · rw [Except.ok.inj hrecord, (documents_of_replace hok).2, Corpus.entry_eq]
    rfl
  · have hnew : d.id ∉ mid.documents.keys := hdocuments ▸ Dict.notMem_keys_erase ix.documents d.id
    show mid.tokens + _ - tokenCount (mid.documents.insert d.id _) = _
    rw [tokenCount_insert hnew, ← hsurplus, surplus]
    grind
  · intro before d' after heq _ term p hp
    obtain rfl : d' = d := List.mem_singleton.1 (heq ▸ List.mem_append_right _ List.mem_cons_self)
    obtain ⟨rfl, hterm⟩ := Corpus.posting?_eq_some_iff.1 hp
    rw [← Corpus.posting_eq]
    exact posting_mem_foldl_recordTerm _ mid.terms hterm
  · simp only [List.map_cons, List.map_nil, List.mem_singleton]
    have hrecorded := filter_foldl_recordTerm ⟨d.id, Corpus.fieldTokens a d.fields⟩
      (AnalyzedDocument.terms ⟨d.id, Corpus.fieldTokens a d.fields⟩).toList mid.terms term
    exact hrecorded.trans (hothers term)

/-- **One document after another.** What the first has brought is kept unless a later document has
its identifier. -/
theorem Gains.cons {d : Document} {batch : List Document} {mid : Index} (h : Gains a [d] ix mid)
    (h' : Gains a batch mid ix') : Gains a (d :: batch) ix ix' where
  documents := by rw [h'.documents, h.documents]; rfl
  surplus := h'.surplus.trans h.surplus
  own before d' after heq hlater term p hp := by
    rcases before with _ | ⟨x, before⟩
    · obtain ⟨rfl, rfl⟩ := List.cons.inj heq
      have hmid : p ∈ mid.postings term :=
        h.own [] d [] rfl List.not_mem_nil term p hp
      have hdoc : p.doc = d.id := by rw [(Corpus.posting?_eq_some_iff.1 hp).1]
      have hkept : p ∈ (ix'.postings term).filter (·.doc ∉ batch.map (·.id)) := by
        rw [h'.others]
        exact List.mem_filter.2 ⟨hmid, decide_eq_true (hdoc ▸ hlater)⟩
      exact (List.mem_filter.1 hkept).1
    · exact h'.own before d' after (List.cons.inj heq).2 hlater term p hp
  others term := by
    have hboth : ∀ ps : Postings, ps.filter (·.doc ∉ (d :: batch).map (·.id)) =
        (ps.filter (·.doc ∉ [d].map (·.id))).filter (·.doc ∉ batch.map (·.id)) := by
      intro ps
      rw [List.filter_filter]
      refine List.filter_congr fun p _ ↦ ?_
      simp only [List.map_cons, List.map_nil, List.mem_cons, List.not_mem_nil, or_false, not_or]
      exact Bool.decide_and _ _ |>.trans (Bool.and_comm _ _)
    rw [hboth, hboth, ← h.others, List.filter_comm, h'.others, List.filter_comm]

/-- **A batch that is added** brings all its documents, as one version. -/
theorem gains_of_add {batch : List Document} (hok : ix.add a batch = .ok ix') :
    ix'.version = ix.version + 1 ∧ Gains a batch ix ix' := by
  rw [add_eq (canBeAdded_of_add hok)] at hok
  obtain ⟨last, hfold, rfl⟩ := Passes.map_eq_ok_iff.1 hok
  suffices hkey : last.version = ix.version ∧ Gains a batch ix last from
    ⟨congrArg (· + 1) hkey.1, hkey.2.documents, hkey.2.surplus, hkey.2.own, hkey.2.others⟩
  clear hok
  induction batch generalizing ix with
  | nil =>
    rw [← Except.ok.inj hfold]
    exact ⟨rfl, .refl a ix⟩
  | cons d batch ih =>
    rw [List.map_cons, List.foldlM_cons] at hfold
    obtain ⟨next, hreplace, hrest⟩ := Passes.bind_eq_ok_iff.1 hfold
    obtain ⟨hversion, hgains⟩ := ih hrest
    exact ⟨hversion.trans (documents_of_replace hreplace).1,
      (gains_of_replace hreplace).cons hgains⟩

end Index

end Concordance
