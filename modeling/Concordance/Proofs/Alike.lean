import Concordance.Proofs.Conjunctions

/-!
# Searches that cannot be told apart

What a tree comes to depends on its operands only by what they come to, with and without a sign. So
if the operands of two trees are alike one by one, the trees are alike (`Alike.conj`, `Alike.disj`),
and whatever leaves the matches of the leaves as they are leaves those of a whole query as they are:
other options that no leaf looks at, or other leaves with the same matches.
-/

namespace Concordance.Searcher

variable {s : Searcher} {o o' : SearchOptions}

/-- Two queries that come to the same, each with options of its own. A clause with a sign is
evaluated without it, so both are looked at. -/
structure Alike (s : Searcher) (o o' : SearchOptions) (q q' : Query) : Prop where
  sign : q'.isNegation = q.isNegation
  whole : s.matches? o' q' = s.matches? o q
  bare : s.matches? o' q'.unnegated = s.matches? o q.unnegated

theorem Alike.refl (q : Query) : s.Alike o o q q :=
  ⟨rfl, rfl, rfl⟩

/-- Clauses without a sign are alike if they have the same matches. -/
theorem Alike.of_whole {q q' : Query} (hq : q.isNegation = false) (hq' : q'.isNegation = false)
    (h : s.matches? o' q' = s.matches? o q) : s.Alike o o' q q' where
  sign := hq'.trans hq.symm
  whole := h
  bare := by rwa [Query.unnegated_of_isNegation hq, Query.unnegated_of_isNegation hq']

/-- Queries that are alike, and that the negation rule does not tell apart, have the same result. -/
theorem Alike.evaluate {q q' : Query} (h : s.Alike o o' q q')
    (hrule : q'.checkNegation false = q.checkNegation false) :
    s.evaluate o' q' = s.evaluate o q := by
  rw [Searcher.evaluate, Searcher.evaluate, hrule, h.whole]

variable {qs qs' : List Query}

theorem positives_congr (h : List.Forall₂ (s.Alike o o') qs qs') :
    ∀ found, s.positives o' found qs' = s.positives o found qs := by
  induction h with
  | nil => exact fun found ↦ by rw [positives, positives]
  | @cons q q' qs qs' hq _ ih =>
    intro found
    rcases hsign : q.isNegation with _ | _
    · have hsign' : q'.isNegation = false := hq.sign.trans hsign
      rcases found with _ | _ | ⟨m, ms⟩
      · simp only [positives_first hsign, positives_first hsign', hq.whole, ih]
      · rw [positives_stop hsign, positives_stop hsign']
      · have hms : m :: ms ≠ [] := List.cons_ne_nil m ms
        simp only [positives_more hsign hms, positives_more hsign' hms, hq.whole, ih]
    · rw [positives_skip hsign, positives_skip (hq.sign.trans hsign), ih]

theorem withoutNegatives_congr (h : List.Forall₂ (s.Alike o o') qs qs') :
    ∀ found, s.withoutNegatives o' found qs' = s.withoutNegatives o found qs := by
  induction h with
  | nil => exact fun found ↦ by rw [withoutNegatives, withoutNegatives]
  | @cons q q' qs qs' hq _ ih =>
    intro found
    rcases hsign : q.isNegation with _ | _
    · rw [withoutNegatives_skip hsign, withoutNegatives_skip (hq.sign.trans hsign), ih]
    · have hsign' : q'.isNegation = true := hq.sign.trans hsign
      rcases found with _ | ⟨m, ms⟩
      · rw [withoutNegatives_stop hsign, withoutNegatives_stop hsign']
      · have hms : m :: ms ≠ [] := List.cons_ne_nil m ms
        simp only [withoutNegatives_less hsign hms, withoutNegatives_less hsign' hms, hq.bare, ih]

theorem each_congr (h : List.Forall₂ (s.Alike o o') qs qs') : s.each o' qs' = s.each o qs := by
  induction h with
  | nil => rw [each, each]
  | cons hq _ ih => rw [each, each, hq.whole, ih]

/-! ### Trees of clauses that are alike -/

variable (hcheck : checkpoint o' = checkpoint o) (position : Nat)

include hcheck

theorem Alike.neg {q q' : Query} (h : s.Alike o o' q q') :
    s.Alike o o' (.neg position q) (.neg position q') where
  sign := rfl
  whole := by rw [matches?, matches?, hcheck]
  bare := h.whole

/-- **Conjunctions of clauses that are alike are alike.** -/
theorem Alike.conj (h : List.Forall₂ (s.Alike o o') qs qs') :
    s.Alike o o' (.conj position qs) (.conj position qs') := by
  refine .of_whole rfl rfl ?_
  rw [matches?, matches?, hcheck, positives_congr h]
  simp only [withoutNegatives_congr h]

/-- **So are alternatives.** -/
theorem Alike.disj (h : List.Forall₂ (s.Alike o o') qs qs') :
    s.Alike o o' (.disj position qs) (.disj position qs') := by
  refine .of_whole rfl rfl ?_
  rw [matches?, matches?, hcheck, each_congr h]

end Concordance.Searcher
