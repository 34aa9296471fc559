import Concordance.Proofs.PhraseMatches
import Concordance.Proofs.Soundness
import Concordance.Search.Evaluation

/-!
# Searching a sound index

On a sound index the search for a single term, for all that a term stands for, for a beginning and
for a phrase cannot fail, and what it finds is in the order of documents. Soundness gives two facts
and the rest follows from them: the postings of a term are in order, so what is kept of them is, and
the document of a posting is there, so its statistics are. Whether the postings belong to what the
documents say does not matter here.
-/

namespace Concordance

/-- A pass over rows in order finds matches in order. -/
theorem Matches.exists_filterMapM_ordered {α ε : Type} {f : α → Except ε (Option Match)}
    (key : α → Bytes) {l : List α} (hl : l.Pairwise fun x y ↦ key x < key y)
    (hf : ∀ x ∈ l, ∃ y, f x = .ok y ∧ ∀ m ∈ y, m.doc = key x) :
    ∃ ms, l.filterMapM f = .ok ms ∧ Matches.Ordered ms := by
  obtain ⟨ys, hall, hpass⟩ := Passes.exists_filterMapM hf
  refine ⟨_, hpass, List.pairwise_map.1 ((List.pairwise_map.2 hl).sublist ?_)⟩
  -- the documents found are keys of some of the rows
  clear hpass hl hf
  induction hall with
  | nil => exact List.Sublist.slnil
  | @cons x y l ys hxy _ ih =>
    cases y with
    | none => exact ih.cons _
    | some m =>
      have hdoc : m.doc = key x := hxy m rfl
      show (m.doc :: (ys.filterMap id).map (·.doc)).Sublist (key x :: l.map key)
      rw [hdoc]
      exact ih.cons_cons _

theorem Matches.ordered_uniteAll {lists : List Matches} (h : ∀ l ∈ lists, l.Ordered) :
    (uniteAll lists).Ordered :=
  ((isUnion_uniteAll lists).lists h).ordered

namespace Searcher

variable {s : Searcher} {o : SearchOptions}

/-! ### Terms and phrases -/

section InOrder

variable (h : s.index.InOrder)

include h

/-- **One term.** -/
theorem exists_matchTerm (term : Bytes) (weight : Float) :
    ∃ ms, s.matchTerm o term weight = .ok ms ∧ ms.Ordered :=
  Matches.exists_filterMapM_ordered (·.doc) (h.ordered term) fun p hp ↦
    have ⟨y, hy, hdoc, _⟩ := exists_matchPosting (h.known term p hp) term weight _
    ⟨y, hy, hdoc⟩

/-- Several terms, each with a weight. -/
theorem exists_matchTerms {α : Type} (l : List α) (term : α → Bytes) (weight : α → Float) :
    ∃ lists, (l.mapM fun x ↦ s.matchTerm o (term x) (weight x)) = .ok lists ∧
      ∀ ms ∈ lists, ms.Ordered := by
  obtain ⟨lists, hlists, hall⟩ :=
    Passes.exists_mapM (l := l) fun x _ ↦ exists_matchTerm (o := o) h (term x) (weight x)
  exact ⟨lists, hlists, Passes.forall_mem_of_forall₂ hall fun _ _ hx ↦ hx⟩

omit h in
/-- A search that has not been called off finds the terms near others. -/
theorem exists_nearWeights (hcancelled : o.cancelled = false) (hpos : 0 < o.maxDistance)
    (terms : List Bytes) : ∃ weights, s.nearWeights o terms = .ok weights := by
  have hpass : ∃ weights, s.nearWeights o terms = .ok weights ∧ True := by
    refine Passes.exists_foldlM (fun _ _ ↦ True) (fun _ t _ _ _ _ ↦ ?_) trivial
    obtain ⟨found, hfound⟩ :=
      Index.exists_near_of_nonneg s.index t (Int32.lt_iff_toInt_lt.1 hpos).le
    exact ⟨_, by rw [hcancelled, hfound]; rfl, trivial⟩
  exact hpass.imp fun _ h ↦ h.1

omit h in
/-- It finds out what a term stands for. -/
theorem exists_expansion (hcancelled : o.cancelled = false) (term : Bytes) :
    ∃ weights, s.expansion o term = .ok weights := by
  rw [expansion]
  split
  · rename_i hpos
    obtain ⟨near, hnear⟩ :=
      exists_nearWeights (s := s) hcancelled hpos (s.synonyms.expand term).toList
    exact ⟨_, by rw [hnear]; rfl⟩
  · exact ⟨_, rfl⟩

/-- **All that a term stands for.** -/
theorem exists_matchExpansion (hcancelled : o.cancelled = false) (term : Bytes) :
    ∃ ms, s.matchExpansion o term = .ok ms ∧ ms.Ordered := by
  obtain ⟨weights, hweights⟩ := exists_expansion (s := s) hcancelled term
  obtain ⟨lists, hlists, hordered⟩ := exists_matchTerms (o := o) h weights.entries (·.1) (·.2)
  refine ⟨.uniteAll lists, ?_, Matches.ordered_uniteAll hordered⟩
  rw [matchExpansion, hweights]
  show (do
    let lists ← weights.entries.mapM fun e ↦ s.matchTerm o e.1 e.2
    return Matches.uniteAll lists : Except Error Matches) = _
  rw [hlists]
  rfl

/-- **A beginning.** -/
theorem exists_matchBeginning (start : Bytes) :
    ∃ ms, s.matchBeginning o start = .ok ms ∧ ms.Ordered := by
  obtain ⟨lists, hlists, hordered⟩ :=
    exists_matchTerms (o := o) h (s.index.termsBeginning start) (fun term ↦ term) fun _ ↦ 1
  refine ⟨.uniteAll lists, ?_, Matches.ordered_uniteAll hordered⟩
  rw [matchBeginning, hlists]
  rfl

/-- **A phrase.** -/
theorem exists_matchPhrase (tokens : List Token) :
    ∃ ms, s.matchPhrase o tokens = .ok ms ∧ ms.Ordered := by
  obtain ⟨ms, hok, hordered, -⟩ := exists_matchPhrase_counts (o := o) h tokens
  exact ⟨ms, hok, hordered⟩

/-- **A word**, which may turn out to be a phrase. -/
theorem exists_matchWord (hcancelled : o.cancelled = false) (text : Bytes) :
    ∃ ms, s.matchWord o text = .ok ms ∧ ms.Ordered := by
  rw [matchWord]
  split
  · exact ⟨[], rfl, .nil⟩
  · exact exists_matchExpansion h hcancelled _
  · exact exists_matchPhrase h _

end InOrder

end Searcher

end Concordance
