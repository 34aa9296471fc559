import Concordance.Proofs.Matches
import Concordance.Proofs.Negation
import Concordance.Search.Evaluation

/-!
# How a conjunction is evaluated

A conjunction looks at its operands in turn: at those without a sign first, in order, and then at
those with one. It is one pass (`matches?_conj`): the first operand gives documents, and each other
narrows them down, by intersection or by taking away, as long as there are any. Once none is left
the pass goes on over the empty list, without a look at the operands.

A whole evaluation ranks what is found, if it is in order (`evaluate_of_ordered`).
-/

namespace Concordance

namespace Query

/-- A clause without its sign. -/
def unnegated : Query → Query
  | neg _ operand => operand
  | q => q

/-- What has no sign is what it is without a sign. -/
theorem unnegated_of_isNegation {q : Query} (h : q.isNegation = false) : q.unnegated = q := by
  cases q with
  | neg position operand => cases h
  | _ => rfl

/-- The operands of a conjunction in the order in which they are looked at. -/
def inTurn (qs : List Query) : List Query :=
  qs.filter (!·.isNegation) ++ qs.filter (·.isNegation)

/-- The operands are reordered, and none is lost. -/
theorem mem_inTurn {q : Query} {qs : List Query} : q ∈ inTurn qs ↔ q ∈ qs := by
  rw [inTurn, List.mem_append, List.mem_filter, List.mem_filter]
  cases q.isNegation <;> simp

/-- Some operand without a sign is looked at first, if there is one. -/
theorem exists_inTurn {qs : List Query} (h : ∃ q ∈ qs, q.isNegation = false) :
    ∃ q rest, inTurn qs = q :: rest ∧ q.isNegation = false := by
  obtain ⟨q, hq, hsign⟩ := h
  have hmem : q ∈ qs.filter (!·.isNegation) := List.mem_filter.2 ⟨hq, by rw [hsign]; rfl⟩
  obtain ⟨q', rest, hfilter⟩ := List.exists_cons_of_ne_nil (List.ne_nil_of_mem hmem)
  have hq' : q' ∈ qs.filter (!·.isNegation) := hfilter ▸ List.mem_cons_self
  refine ⟨q', rest ++ qs.filter (·.isNegation), by rw [inTurn, hfilter, List.cons_append], ?_⟩
  simpa using (List.mem_filter.1 hq').2

/-! ### What is looked at -/

/-- The queries that are evaluated for the sake of a query: the operands of a conjunction without
their signs, and those of an alternative. -/
def lookedAt : Query → List Query
  | conj _ qs => qs.map unnegated
  | disj _ qs => qs
  | _ => []

/-- What is looked at for a query is an operand, or one without its sign. -/
theorem exists_operand_of_mem_lookedAt {q t : Query} (h : q ∈ t.lookedAt) :
    ∃ q' ∈ t.operands, q = q' ∨ q = q'.unnegated := by
  cases t with
  | conj position qs =>
    obtain ⟨q', hq', rfl⟩ := List.mem_map.1 h
    exact ⟨q', hq', .inr rfl⟩
  | disj position qs => exact ⟨q, h, .inl rfl⟩
  | _ => exact absurd h List.not_mem_nil

/-- **What a query inherits from the queries that are looked at for it holds of every query.** -/
theorem induct_lookedAt {motive : Query → Prop} (h : ∀ t, (∀ q ∈ t.lookedAt, motive q) → motive t)
    (t : Query) : motive t := by
  -- an operand with a sign is looked at without it, so the induction carries both
  suffices hboth : motive t ∧ motive t.unnegated from hboth.1
  induction t using induct with
  | h t ih =>
    have ht : motive t := h t fun q hq ↦ by
      obtain ⟨q', hq', rfl | rfl⟩ := exists_operand_of_mem_lookedAt hq
      · exact (ih q hq').1
      · exact (ih q' hq').2
    cases t with
    | neg position operand => exact ⟨ht, (ih operand (List.mem_singleton_self _)).1⟩
    | _ => exact ⟨ht, ht⟩

/-- A query that keeps the negation rule keeps it in all that is looked at for it. -/
theorem checkNegation_of_mem_lookedAt {q t : Query} (hq : q ∈ t.lookedAt)
    (h : t.checkNegation false = .ok ()) : q.checkNegation false = .ok () := by
  cases t with
  | conj position qs =>
    obtain ⟨q', hq', rfl⟩ := List.mem_map.1 hq
    rw [checkNegation] at h
    split at h
    · cases h
    · have hrule : q'.checkNegation true = .ok () := checkNegations_eq_ok_iff.1 h q' hq'
      cases q' with
      | neg position operand =>
        rw [checkNegation, if_pos rfl] at hrule
        exact hrule
      | _ => exact hrule
  | disj position qs =>
    rw [checkNegation] at h
    exact checkNegations_eq_ok_iff.1 h q hq
  | _ => exact absurd hq List.not_mem_nil

end Query

namespace Searcher

variable {s : Searcher} {o : SearchOptions} {q : Query} {qs : List Query}

/-! ### A search that has not been called off -/

theorem checkpoint_of_not_cancelled (h : o.cancelled = false) : checkpoint o = .ok () := by
  rw [checkpoint, h]
  rfl

/-- A search that has not been called off goes on. -/
theorem checkpoint_bind (h : o.cancelled = false) {α : Type} (f : Unit → Except Error α) :
    checkpoint o >>= f = f () := by
  rw [checkpoint_of_not_cancelled h]
  rfl

/-- A search that has been called off finds nothing. -/
theorem matches?_of_cancelled (h : o.cancelled = true) (q : Query) :
    s.matches? o q = .error .cancelled := by
  have hcheck : checkpoint o = .error .cancelled := if_pos h
  cases q <;> exact Passes.bind_eq_error_iff.2 (.inl hcheck)

/-- One that has found something has not been called off. -/
theorem not_cancelled_of_matches? {ms : Matches} (h : s.matches? o q = .ok ms) :
    o.cancelled = false := by
  rcases hcancelled : o.cancelled with _ | _
  · rfl
  · rw [matches?_of_cancelled hcancelled] at h
    cases h

/-- A wildcard finds what its beginning finds. -/
theorem matches?_wildcard (h : o.cancelled = false) (position : Nat) (start : Bytes) :
    s.matches? o (.wildcard position start) = s.matchWildcard o position start :=
  checkpoint_bind h _

/-- A word finds what its terms find. -/
theorem matches?_word (h : o.cancelled = false) (position : Nat) (text : Bytes) :
    s.matches? o (.word position text) = s.matchWord o text :=
  checkpoint_bind h _

/-- A phrase finds what its tokens find side by side. -/
theorem matches?_phrase (h : o.cancelled = false) (position : Nat) (text : Bytes)
    (words : List Bytes) :
    s.matches? o (.phrase position text words) = s.matchPhrase o (s.analyzer.analyze true text) :=
  checkpoint_bind h _

/-- A clause with a sign is refused outside of a conjunction. -/
theorem matches?_neg (h : o.cancelled = false) (position : Nat) (operand : Query) :
    s.matches? o (.neg position operand) = .error (.query .loneNegation position) :=
  checkpoint_bind h _

/-- The operands of an alternative are looked at one by one. -/
theorem each_eq_mapM (qs : List Query) : s.each o qs = qs.mapM (s.matches? o) := by
  induction qs with
  | nil => rfl
  | cons q qs ih =>
    rw [List.mapM_cons, ← ih]
    rfl

/-- **Alternatives** are evaluated each for itself and united. -/
theorem matches?_disj (h : o.cancelled = false) (position : Nat) (qs : List Query) :
    s.matches? o (.disj position qs) = Matches.uniteAll <$> s.each o qs :=
  (checkpoint_bind h _).trans (bind_pure_comp (m := Except Error) Matches.uniteAll _)

/-! ### The whole evaluation -/

/-- What the evaluation of a query comes to that keeps the negation rule. -/
theorem evaluate_eq (hrule : q.checkNegation false = .ok ()) : s.evaluate o q =
    (do
      let found ← s.matches? o q
      if found.isOrdered then return found.ranked else .error (.index .unorderedMatches)) := by
  rw [evaluate, hrule]
  rfl

/-- Matches in order are ranked. -/
theorem evaluate_of_ordered (hrule : q.checkNegation false = .ok ()) {found : Matches}
    (hfound : s.matches? o q = .ok found) (hordered : found.Ordered) :
    s.evaluate o q = .ok found.ranked := by
  rw [evaluate_eq hrule, hfound]
  exact if_pos (Matches.isOrdered_iff.2 hordered)

/-- An error on the way is the error of the search. -/
theorem evaluate_of_error (hrule : q.checkNegation false = .ok ()) {e : Error}
    (herror : s.matches? o q = .error e) : s.evaluate o q = .error e := by
  rw [evaluate_eq hrule, herror]
  rfl

/-- A ranking is one of matches in order. -/
theorem exists_of_evaluate {ranking : Matches} (h : s.evaluate o q = .ok ranking) :
    ∃ found, s.matches? o q = .ok found ∧ found.Ordered ∧ found.ranked = ranking := by
  obtain ⟨-, -, h⟩ := Passes.bind_eq_ok_iff.1 h
  obtain ⟨found, hfound, h⟩ := Passes.bind_eq_ok_iff.1 h
  split at h
  · rename_i hordered
    exact ⟨found, hfound, Matches.isOrdered_iff.1 hordered, Except.ok.inj h⟩
  · cases h

/-! ### One operand -/

/-- The documents found so far narrowed down by one more operand. -/
def narrow (s : Searcher) (o : SearchOptions) (found : Matches) (q : Query) :
    Except Error Matches :=
  if found.isEmpty then .ok []
  else do
    let ms ← s.matches? o q.unnegated
    return if q.isNegation then found.subtract ms else found.intersect ms

@[simp] theorem narrow_nil (q : Query) : s.narrow o [] q = .ok [] := rfl

/-- As long as there are matches, an operand is evaluated and takes its part of them. -/
theorem narrow_of_ne_nil {found : Matches} (h : found ≠ []) (q : Query) :
    s.narrow o found q =
      (do
        let ms ← s.matches? o q.unnegated
        return if q.isNegation then found.subtract ms else found.intersect ms) := by
  rw [narrow, if_neg fun hnil ↦ h (List.isEmpty_iff.1 hnil)]

/-- Where nothing is left nothing is looked at. -/
theorem foldlM_narrow_nil (qs : List Query) : qs.foldlM (s.narrow o) [] = .ok [] := by
  induction qs with
  | nil => rfl
  | cons q qs ih =>
    rw [List.foldlM_cons, narrow_nil]
    exact ih

/-! ### Both loops are passes -/

/-- The loop over the operands without a sign passes over those with a sign. -/
theorem positives_skip (h : q.isNegation = true) (found : Option Matches) :
    s.positives o found (q :: qs) = s.positives o found qs := by
  cases q with
  | neg position operand => rfl
  | _ => cases h

/-- It begins with the matches of the first. -/
theorem positives_first (h : q.isNegation = false) : s.positives o none (q :: qs) =
    (do
      let first ← s.matches? o q
      s.positives o (some first) qs) := by
  cases q with
  | neg position operand => cases h
  | _ => rfl

/-- It ends once there are no matches left. -/
theorem positives_stop (h : q.isNegation = false) :
    s.positives o (some []) (q :: qs) = .ok (some []) := by
  cases q with
  | neg position operand => cases h
  | _ => rfl

/-- As long as there are some, it goes on with those that the next operand has as well. -/
theorem positives_more (h : q.isNegation = false) {ms : Matches} (hms : ms ≠ []) :
    s.positives o (some ms) (q :: qs) =
      (do
        let more ← s.matches? o q
        s.positives o (some (ms.intersect more)) qs) := by
  obtain ⟨m, ms, rfl⟩ := List.exists_cons_of_ne_nil hms
  cases q with
  | neg position operand => cases h
  | _ => rfl

/-- The loop over the operands with a sign passes over those without. -/
theorem withoutNegatives_skip (h : q.isNegation = false) (ms : Matches) :
    s.withoutNegatives o ms (q :: qs) = s.withoutNegatives o ms qs := by
  cases q with
  | neg position operand => cases h
  | _ => rfl

/-- It ends once there are no matches left. -/
theorem withoutNegatives_stop (h : q.isNegation = true) :
    s.withoutNegatives o [] (q :: qs) = .ok [] := by
  cases q with
  | neg position operand => rfl
  | _ => cases h

/-- As long as there are some, it takes those of the next operand away. -/
theorem withoutNegatives_less (h : q.isNegation = true) {ms : Matches} (hms : ms ≠ []) :
    s.withoutNegatives o ms (q :: qs) =
      (do
        let fewer ← s.matches? o q.unnegated
        s.withoutNegatives o (ms.subtract fewer) qs) := by
  obtain ⟨m, ms, rfl⟩ := List.exists_cons_of_ne_nil hms
  cases q with
  | neg position operand => rfl
  | _ => cases h

/-- **The operands without a sign narrow down what has been found.** -/
theorem positives_some (qs : List Query) : ∀ found : Matches, s.positives o (some found) qs =
    some <$> (qs.filter (!·.isNegation)).foldlM (s.narrow o) found := by
  induction qs with
  | nil => exact fun _ ↦ rfl
  | cons q qs ih =>
    intro found
    rcases hneg : q.isNegation with _ | _
    · rw [List.filter_cons_of_pos (by simp [hneg]), List.foldlM_cons]
      rcases eq_or_ne found [] with rfl | hne
      · rw [positives_stop hneg, narrow_nil]
        show _ = some <$> List.foldlM (s.narrow o) [] (qs.filter (!·.isNegation))
        rw [foldlM_narrow_nil]
        rfl
      · rw [positives_more hneg hne, narrow_of_ne_nil hne, hneg,
          Query.unnegated_of_isNegation hneg]
        cases s.matches? o q with
        | error e => rfl
        | ok more => exact ih (found.intersect more)
    · rw [positives_skip hneg, ih, List.filter_cons_of_neg (by simp [hneg])]

/-- **The operands with a sign narrow down what has been found.** -/
theorem withoutNegatives_eq (qs : List Query) : ∀ found : Matches,
    s.withoutNegatives o found qs = (qs.filter (·.isNegation)).foldlM (s.narrow o) found := by
  induction qs with
  | nil => exact fun _ ↦ rfl
  | cons q qs ih =>
    intro found
    rcases hneg : q.isNegation with _ | _
    · rw [withoutNegatives_skip hneg, ih, List.filter_cons_of_neg (by simp [hneg])]
    · rw [List.filter_cons_of_pos hneg, List.foldlM_cons]
      rcases eq_or_ne found [] with rfl | hne
      · rw [withoutNegatives_stop hneg, narrow_nil]
        exact (foldlM_narrow_nil _).symm
      · rw [withoutNegatives_less hneg hne, narrow_of_ne_nil hne, hneg]
        cases s.matches? o q.unnegated with
        | error e => rfl
        | ok fewer => exact ih (found.subtract fewer)

/-- The first operand without a sign gives the documents to begin with. -/
theorem positives_none (qs : List Query) : s.positives o none qs =
    match qs.filter (!·.isNegation) with
    | [] => .ok none
    | q :: rest =>
      (do
        let first ← s.matches? o q
        some <$> rest.foldlM (s.narrow o) first) := by
  induction qs with
  | nil => rfl
  | cons q qs ih =>
    rcases hneg : q.isNegation with _ | _
    · rw [positives_first hneg, List.filter_cons_of_pos (by simp [hneg])]
      simp only [positives_some]
    · rw [positives_skip hneg, ih, List.filter_cons_of_neg (by simp [hneg])]

/-! ### The whole conjunction -/

/-- A conjunction goes through its operands twice. -/
theorem matches?_conj_loops (h : o.cancelled = false) (position : Nat) (qs : List Query) :
    s.matches? o (.conj position qs) =
      (do
        match ← s.positives o none qs with
        | none => .error (.query .onlyNegations position)
        | some found => s.withoutNegatives o found qs) :=
  checkpoint_bind h _

/-- **A conjunction is one pass over its operands in turn.** -/
theorem matches?_conj (h : o.cancelled = false) {position : Nat} {rest : List Query}
    (hturn : Query.inTurn qs = q :: rest) (hq : q.isNegation = false) :
    s.matches? o (.conj position qs) =
      (do
        let first ← s.matches? o q
        rest.foldlM (s.narrow o) first) := by
  -- the first in turn has no sign, so it is the first of those without one
  obtain ⟨others, hpositive, rfl⟩ : ∃ others, qs.filter (!·.isNegation) = q :: others ∧
      rest = others ++ qs.filter (·.isNegation) := by
    rcases hfilter : qs.filter (!·.isNegation) with _ | ⟨q', others⟩
    · rw [Query.inTurn, hfilter, List.nil_append] at hturn
      have hmem : q ∈ qs.filter (·.isNegation) := hturn ▸ List.mem_cons_self
      rw [List.mem_filter, hq] at hmem
      exact absurd hmem.2 Bool.false_ne_true
    · rw [Query.inTurn, hfilter, List.cons_append] at hturn
      obtain ⟨rfl, rfl⟩ := List.cons.inj hturn
      exact ⟨others, hfilter, rfl⟩
  rw [matches?_conj_loops h, positives_none, hpositive]
  simp only [withoutNegatives_eq, List.foldlM_append]
  cases s.matches? o q with
  | error e => rfl
  | ok first =>
    show ((some <$> others.foldlM (s.narrow o) first) >>= _) =
      others.foldlM (s.narrow o) first >>= _
    cases others.foldlM (s.narrow o) first <;> rfl

/-- A conjunction whose operands all have a sign is refused. -/
theorem matches?_conj_of_all (h : o.cancelled = false) {position : Nat}
    (hall : ∀ q ∈ qs, q.isNegation = true) :
    s.matches? o (.conj position qs) = .error (.query .onlyNegations position) := by
  have hnone : qs.filter (!·.isNegation) = [] := by
    rw [List.filter_eq_nil_iff]
    exact fun q hq ↦ by simp [hall q hq]
  rw [matches?_conj_loops h, positives_none, hnone]
  rfl

end Searcher

end Concordance
