import Concordance.Index.History
import Concordance.Proofs.History

/-!
# Well-formed terms

The terms that texts are analyzed to are well-formed. Documents are the only way for a term into an
index, so an index of well-formed terms has no others after any change that does not take over an
index from elsewhere (`HasValidTerms.after`), nor after a history of changes
(`HasValidTerms.afterAll`). Only a file can bring in terms that are not well-formed.
-/

namespace Concordance

/-- The terms of an analyzed document are well-formed. -/
theorem Corpus.isValid_of_mem_terms {a : Analyzer} {fields : Dict Bytes} {term : Bytes}
    (hterm : term ∈ (Corpus.terms a fields).toList) : Utf8.isValid term = true := by
  obtain ⟨field, text, -, token, htoken, rfl⟩ := Corpus.mem_terms_iff_occurs.1 hterm
  exact Analyzer.isValid_of_mem_tokensFrom htoken

namespace Index

/-- All terms of an index are well-formed. -/
def HasValidTerms (ix : Index) : Prop :=
  ∀ term ∈ ix.terms.keys, Utf8.isValid term = true

/-! ### What brings terms in -/

section Terms

variable {terms terms' : Dict Postings} {id term t : Bytes}

/-- Replacing the postings of a term brings in no term but that one. -/
theorem mem_keys_of_setPostings {ps : Postings} (h : t ∈ (setPostings terms term ps).keys) :
    t = term ∨ t ∈ terms.keys := by
  obtain ⟨qs, hqs⟩ := Dict.mem_keys_iff.1 h
  rw [find?_setPostings] at hqs
  split at hqs
  · rename_i heq
    exact .inl heq.symm
  · exact .inr (Dict.mem_keys_iff.2 ⟨qs, hqs⟩)

/-- Retracting a posting brings in none: a term without postings has none to retract. -/
theorem mem_keys_of_retractTerm (hok : retractTerm id terms term = .ok terms')
    (h : t ∈ terms'.keys) : t ∈ terms.keys := by
  rcases hfind : terms.find? term with _ | ps
  · rw [retractTerm, hfind] at hok
    cases hok
  · rw [retractTerm] at hok
    split at hok
    · split at hok
      · rw [← Except.ok.inj hok] at h
        rcases mem_keys_of_setPostings h with rfl | h
        · exact Dict.mem_keys_iff.2 ⟨ps, hfind⟩
        · exact h
      · cases hok
    · cases hok

/-- Recording the postings of a document brings in its terms. -/
theorem mem_keys_foldl_recordTerm {d : AnalyzedDocument} {l : List Bytes}
    (h : t ∈ (l.foldl (recordTerm d) terms).keys) : t ∈ l ∨ t ∈ terms.keys := by
  induction l generalizing terms with
  | nil => exact .inr h
  | cons term l ih =>
    rcases ih h with h | h
    · exact .inl (List.mem_cons_of_mem _ h)
    · rcases Dict.mem_keys_insert.1 h with rfl | h
      · exact .inl List.mem_cons_self
      · exact .inr h

end Terms

/-! ### What keeps terms well-formed -/

namespace HasValidTerms

variable {a : Analyzer} {ix ix' : Index}

theorem empty : HasValidTerms .empty :=
  fun _ hmem ↦ absurd hmem List.not_mem_nil

theorem retract (h : ix.HasValidTerms) {id : Bytes} (hok : ix.retract id = .ok ix') :
    ix'.HasValidTerms := by
  rw [Index.retract] at hok
  split at hok
  · rwa [← Except.ok.inj hok]
  · obtain ⟨terms, hfold, hix'⟩ := Passes.bind_eq_ok_iff.1 hok
    rw [← Except.ok.inj hix']
    exact Passes.inv_of_foldlM (p := fun terms ↦ ∀ t ∈ Dict.keys terms, Utf8.isValid t = true)
      (fun _ _ _ _ hterms hstep t ht ↦ hterms t (mem_keys_of_retractTerm hstep ht)) h hfold

theorem record (h : ix.HasValidTerms) {d : AnalyzedDocument}
    (hd : ∀ t ∈ d.terms.toList, Utf8.isValid t = true) : (ix.record d).HasValidTerms := by
  intro t ht
  rcases mem_keys_foldl_recordTerm ht with ht | ht
  · exact hd t ht
  · exact h t ht

/-- A batch of documents is added one after another. -/
theorem add (h : ix.HasValidTerms) {batch : List Document} (hok : ix.add a batch = .ok ix') :
    ix'.HasValidTerms := by
  rw [add_eq (canBeAdded_of_add hok)] at hok
  obtain ⟨last, hfold, rfl⟩ := Passes.map_eq_ok_iff.1 hok
  show last.HasValidTerms
  refine Passes.inv_of_foldlM (p := HasValidTerms) (fun x hx ix next hix hstep ↦ ?_) h hfold
  obtain ⟨d, -, rfl⟩ := List.mem_map.1 hx
  obtain ⟨without, hretract, hnext⟩ := Passes.bind_eq_ok_iff.1 hstep
  rw [← Except.ok.inj hnext]
  exact (hix.retract hretract).record fun _ ↦ Corpus.isValid_of_mem_terms

/-- **A change keeps terms well-formed**, if an index that is taken over has well-formed terms. A
change that fails changes nothing. -/
theorem after (h : ix.HasValidTerms) {c : Change}
    (hrestore : ∀ i, c = .restore i → i.HasValidTerms) : (ix.after a c).1.HasValidTerms := by
  rw [Index.after]
  split
  · rename_i next hok
    cases c with
    | add batch => exact h.add hok
    | remove id =>
      rcases hid : ix.hasDocument id with _ | _
      · rw [change_remove_of_not a hid] at hok
        rwa [← Except.ok.inj hok]
      · rw [change_remove a hid] at hok
        obtain ⟨without, hretract, rfl⟩ := Passes.map_eq_ok_iff.1 hok
        show without.HasValidTerms
        exact h.retract hretract
    | clear =>
      rw [← Except.ok.inj hok]
      exact empty
    | restore i =>
      rw [← Except.ok.inj hok]
      exact hrestore i rfl
  · exact h

/-- **A history of changes keeps terms well-formed.** -/
theorem afterAll (h : ix.HasValidTerms) {history : List Change}
    (hrestore : ∀ i, .restore i ∈ history → i.HasValidTerms) :
    (ix.afterAll a history).HasValidTerms := by
  induction history generalizing ix with
  | nil => exact h
  | cons c history ih =>
    refine ih (h.after fun i hi ↦ ?_) fun i hi ↦ hrestore i (List.mem_cons_of_mem _ hi)
    exact hrestore i (hi ▸ List.mem_cons_self)

end HasValidTerms

end Index

end Concordance
