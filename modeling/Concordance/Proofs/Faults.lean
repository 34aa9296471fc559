import Concordance.Proofs.Conjunctions
import Concordance.Proofs.SoundMatches

/-!
# The faults that an evaluation meets

Whether the evaluation of a query fails is not a property of the query alone: a conjunction looks at
an operand only if the operands before it leave some document. `Searcher.Meets` says which faults of
a query are met, clause by clause and without a pass, and on a sound index that decides how the
evaluation ends: it finds matches in order if no fault is met, and else it fails with one of those
that are (`Searcher.settles`). In particular nothing but a fault of the query can make it fail.
-/

namespace Concordance.Searcher

variable {s : Searcher} {o : SearchOptions}

/-- An operand of a conjunction leaves a document: one without a sign finds it, one with a sign
is evaluated and does not find it. -/
def Leaves (s : Searcher) (o : SearchOptions) (q : Query) (id : Bytes) : Prop :=
  ∃ ms, s.matches? o q.unnegated = .ok ms ∧ (id ∈ ms.map (·.doc) ↔ q.isNegation = false)

/-- The faults of a query that its evaluation meets. All operands of an alternative are looked at,
but those of a conjunction in turn, and only as long as those before leave some document in
common. -/
inductive Meets (s : Searcher) (o : SearchOptions) : Query → QueryFault → Nat → Prop
  | wildcard {position : Nat} {start : Bytes}
      (h : 2 ≤ (s.analyzer.analyze false start).length) :
      Meets s o (.wildcard position start) .compoundWildcard position
  | neg (position : Nat) (operand : Query) :
      Meets s o (.neg position operand) .loneNegation position
  | signs {position : Nat} {qs : List Query} (h : ∀ q ∈ qs, q.isNegation = true) :
      Meets s o (.conj position qs) .onlyNegations position
  | conj {position n : Nat} {qs before after : List Query} {q : Query} {fault : QueryFault}
      (hsome : ∃ q ∈ qs, q.isNegation = false) (hturn : Query.inTurn qs = before ++ q :: after)
      (hleft : ∃ id, ∀ b ∈ before, s.Leaves o b id) (h : Meets s o q.unnegated fault n) :
      Meets s o (.conj position qs) fault n
  | disj {position n : Nat} {qs : List Query} {q : Query} {fault : QueryFault} (hq : q ∈ qs)
      (h : Meets s o q fault n) : Meets s o (.disj position qs) fault n

/-- How the evaluation of a query ends on a sound index. -/
inductive Settles (s : Searcher) (o : SearchOptions) (q : Query) : Prop
  | finds {ms : Matches} (hmatches : s.matches? o q = .ok ms) (hordered : ms.Ordered)
      (hnone : ∀ fault n, ¬ s.Meets o q fault n)
  | fails {fault : QueryFault} {n : Nat} (herror : s.matches? o q = .error (.query fault n))
      (hmeets : s.Meets o q fault n)

/-! ### Operands in turn -/

/-- A fault is met in one of several operands that are looked at in turn, where the documents with a
property were left before. -/
def MeetsInTurn (s : Searcher) (o : SearchOptions) (p : Bytes → Prop) (qs : List Query)
    (fault : QueryFault) (n : Nat) : Prop :=
  ∃ before q after, qs = before ++ q :: after ∧ (∃ id, p id ∧ ∀ b ∈ before, s.Leaves o b id) ∧
    s.Meets o q.unnegated fault n

/-- It is met in the first of them or in one after that. -/
theorem meetsInTurn_cons {p : Bytes → Prop} {q : Query} {qs : List Query} {fault : QueryFault}
    {n : Nat} : s.MeetsInTurn o p (q :: qs) fault n ↔
      (∃ id, p id) ∧ s.Meets o q.unnegated fault n ∨
        s.MeetsInTurn o (fun id ↦ p id ∧ s.Leaves o q id) qs fault n := by
  constructor
  · rintro ⟨before, q', after, hqs, ⟨id, hid, hbefore⟩, hmeets⟩
    rcases List.cons_eq_append_iff.1 hqs with ⟨rfl, hq⟩ | ⟨before', rfl, hrest⟩
    · obtain ⟨rfl, rfl⟩ := List.cons.inj hq
      exact .inl ⟨⟨id, hid⟩, hmeets⟩
    · obtain ⟨hleaves, hbefore⟩ := List.forall_mem_cons.1 hbefore
      exact .inr ⟨before', q', after, hrest, ⟨id, ⟨hid, hleaves⟩, hbefore⟩, hmeets⟩
  · rintro (⟨⟨id, hid⟩, hmeets⟩ | ⟨before, q', after, rfl, ⟨id, ⟨hid, hleaves⟩, hbefore⟩, hmeets⟩)
    · exact ⟨[], q, qs, rfl, ⟨id, hid, List.forall_mem_nil _⟩, hmeets⟩
    · exact ⟨q :: before, q', after, rfl,
        ⟨id, hid, List.forall_mem_cons.2 ⟨hleaves, hbefore⟩⟩, hmeets⟩

/-- **One more operand**: unless nothing is left already, what it leaves or the fault it meets. -/
theorem narrow_settles {q : Query} (hq : s.Settles o q.unnegated) {found : Matches}
    {p : Bytes → Prop} (hfound : found.Lists p) :
    (∃ ms, s.narrow o found q = .ok ms ∧ ms.Lists (fun id ↦ p id ∧ s.Leaves o q id) ∧
        ∀ fault n, (∃ id, p id) → ¬ s.Meets o q.unnegated fault n) ∨
      ∃ fault n, s.narrow o found q = .error (.query fault n) ∧ (∃ id, p id) ∧
        s.Meets o q.unnegated fault n := by
  rcases eq_or_ne found [] with rfl | hne
  · have hnothing : ∀ id, ¬ p id := fun id hid ↦ List.not_mem_nil ((hfound.mem_iff id).2 hid)
    exact .inl ⟨[], rfl, hfound.congr fun id ↦ (and_iff_left_of_imp fun hid ↦ absurd hid
      (hnothing id)).symm, fun _ _ ⟨id, hid⟩ ↦ absurd hid (hnothing id)⟩
  · obtain ⟨m, hm⟩ := List.exists_mem_of_ne_nil found hne
    have hleft : ∃ id, p id := ⟨m.doc, (hfound.mem_iff m.doc).1 (List.mem_map_of_mem hm)⟩
    rw [narrow_of_ne_nil hne]
    cases hq with
    | finds hmatches hordered hnone =>
      rename_i ms
      have hleaves : ∀ id, s.Leaves o q id ↔ (id ∈ ms.map (·.doc) ↔ q.isNegation = false) := by
        intro id
        simp [Leaves, hmatches]
      have hms : ms.Lists (· ∈ ms.map (·.doc)) := ⟨hordered, fun _ ↦ Iff.rfl⟩
      rw [hmatches]
      refine .inl ⟨_, rfl, ?_, fun fault n _ ↦ hnone fault n⟩
      rcases hsign : q.isNegation with _ | _
      · exact (hfound.intersect hms).congr fun id ↦ by simp [hleaves, hsign]
      · exact (hfound.subtract hms).congr fun id ↦ by simp [hleaves, hsign]
    | fails herror hmeets =>
      exact .inr ⟨_, _, by rw [herror]; rfl, hleft, hmeets⟩

/-- **Several operands in turn.** -/
theorem foldlM_narrow_settles {qs : List Query} (hqs : ∀ q ∈ qs, s.Settles o q.unnegated) :
    ∀ {found : Matches} {p : Bytes → Prop}, found.Lists p →
      (∃ ms, qs.foldlM (s.narrow o) found = .ok ms ∧
          ms.Lists (fun id ↦ p id ∧ ∀ q ∈ qs, s.Leaves o q id) ∧
          ∀ fault n, ¬ s.MeetsInTurn o p qs fault n) ∨
        ∃ fault n, qs.foldlM (s.narrow o) found = .error (.query fault n) ∧
          s.MeetsInTurn o p qs fault n := by
  induction qs with
  | nil =>
    intro found p hfound
    refine .inl ⟨found, rfl, hfound.congr fun id ↦ by simp, ?_⟩
    rintro fault n ⟨before, q, after, hqs, -⟩
    simp at hqs
  | cons q qs ih =>
    intro found p hfound
    obtain ⟨hq, hqs⟩ := List.forall_mem_cons.1 hqs
    simp only [List.foldlM_cons, meetsInTurn_cons, List.forall_mem_cons, ← and_assoc]
    rcases narrow_settles hq hfound with ⟨ms, hok, hms, hnone⟩ | ⟨fault, n, herror, hmeets⟩
    · rw [hok]
      rcases ih hqs hms with ⟨ms', hok', hms', hnone'⟩ | ⟨fault, n, herror, hmeets⟩
      · exact .inl ⟨ms', ⟨hok', hms'⟩, fun fault n ↦ not_or.2
          ⟨fun ⟨hleft, hmeets⟩ ↦ hnone fault n hleft hmeets, hnone' fault n⟩⟩
      · exact .inr ⟨fault, n, herror, .inr hmeets⟩
    · exact .inr ⟨fault, n, by rw [herror]; rfl, .inl hmeets⟩

/-! ### Clauses -/

/-- A clause that has matches and no faults. -/
theorem Settles.of_exists {q : Query} (h : ∃ ms, s.matches? o q = .ok ms ∧ ms.Ordered)
    (hnone : ∀ fault n, ¬ s.Meets o q fault n) : s.Settles o q :=
  let ⟨_, hmatches, hordered⟩ := h
  .finds hmatches hordered hnone

theorem settles_wildcard (h : s.index.IsSound) (hcancelled : o.cancelled = false) (position : Nat)
    (start : Bytes) : s.Settles o (.wildcard position start) := by
  have hmatch := matches?_wildcard (s := s) hcancelled position start
  by_cases htokens : 2 ≤ (s.analyzer.analyze false start).length
  · refine .fails (hmatch.trans ?_) (.wildcard htokens)
    rw [matchWildcard]
    split
    · rename_i hnil
      simp [hnil] at htokens
    · rename_i hone
      simp [hone] at htokens
    · rfl
  · refine .of_exists ?_ fun fault n hmeets ↦ by cases hmeets; contradiction
    rw [hmatch, matchWildcard]
    split
    · exact ⟨[], rfl, .nil⟩
    · exact exists_matchBeginning h.inOrder _
    · rename_i hnil hone
      rcases hlist : s.analyzer.analyze false start with _ | ⟨token, _ | ⟨token', tokens⟩⟩
      · exact absurd hlist hnil
      · exact absurd hlist (hone token)
      · simp [hlist] at htokens

/-- A fault of a conjunction with an operand without a sign is met in its operands in turn. -/
theorem meets_conj_iff {position : Nat} {qs : List Query} (hsome : ∃ q ∈ qs, q.isNegation = false)
    {fault : QueryFault} {n : Nat} : s.Meets o (.conj position qs) fault n ↔
      s.MeetsInTurn o (fun _ ↦ True) (Query.inTurn qs) fault n := by
  constructor
  · intro h
    cases h with
    | signs hall =>
      obtain ⟨q, hq, hsign⟩ := hsome
      rw [hall q hq] at hsign
      cases hsign
    | conj _ hturn hleft hmeets =>
      obtain ⟨id, hleft⟩ := hleft
      exact ⟨_, _, _, hturn, ⟨id, trivial, hleft⟩, hmeets⟩
  · rintro ⟨before, q, after, hturn, ⟨id, -, hleft⟩, hmeets⟩
    exact .conj hsome hturn ⟨id, hleft⟩ hmeets

/-- **A conjunction**, whose operands settle without their signs. -/
theorem settles_conj (hcancelled : o.cancelled = false) (position : Nat) {qs : List Query}
    (hqs : ∀ q ∈ qs, s.Settles o q.unnegated) : s.Settles o (.conj position qs) := by
  by_cases hall : ∀ q ∈ qs, q.isNegation = true
  · exact .fails (matches?_conj_of_all hcancelled hall) (.signs hall)
  · have hsome : ∃ q ∈ qs, q.isNegation = false := by simpa using hall
    obtain ⟨q, rest, hturn, hsign⟩ := Query.exists_inTurn hsome
    have hmem : ∀ q' ∈ q :: rest, q' ∈ qs := fun q' hq' ↦ Query.mem_inTurn.1 (hturn ▸ hq')
    obtain ⟨hq, hrest⟩ := List.forall_mem_cons.1 fun q' hq' ↦ hqs q' (hmem q' hq')
    have hsame : q.unnegated = q := Query.unnegated_of_isNegation hsign
    have hconj : s.matches? o (.conj position qs) =
        s.matches? o q >>= fun first ↦ rest.foldlM (s.narrow o) first :=
      matches?_conj hcancelled hturn hsign
    have hmeets_iff : ∀ fault n, s.Meets o (.conj position qs) fault n ↔
        s.Meets o q fault n ∨ s.MeetsInTurn o (s.Leaves o q) rest fault n := by
      intro fault n
      rw [meets_conj_iff hsome, hturn, meetsInTurn_cons, hsame]
      simp only [true_and, exists_const]
    rw [hsame] at hq
    cases hq with
    | fails herror hmeets =>
      exact .fails (by rw [hconj, herror]; rfl) ((hmeets_iff _ _).2 (.inl hmeets))
    | @finds first hmatches hordered hnone =>
      -- the first operand leaves what it finds, and the others go on from there
      have hfirst : first.Lists (s.Leaves o q) := by
        refine ⟨hordered, fun id ↦ ?_⟩
        simp [Leaves, hsame, hmatches, hsign]
      rw [hmatches] at hconj
      rcases foldlM_narrow_settles hrest hfirst with
        ⟨ms, hok, hms, hnone'⟩ | ⟨fault, n, herror, hmeets⟩
      · refine .finds (hconj.trans hok) hms.ordered fun fault n hmeets ↦ ?_
        exact ((hmeets_iff fault n).1 hmeets).elim (hnone fault n) (hnone' fault n)
      · exact .fails (hconj.trans herror) ((hmeets_iff fault n).2 (.inr hmeets))

/-- The operands of an alternative, one by one. -/
theorem each_settles {qs : List Query} (hqs : ∀ q ∈ qs, s.Settles o q) :
    (∃ lists, s.each o qs = .ok lists ∧ (∀ ms ∈ lists, ms.Ordered) ∧
        ∀ q ∈ qs, ∀ fault n, ¬ s.Meets o q fault n) ∨
      ∃ fault n, s.each o qs = .error (.query fault n) ∧ ∃ q ∈ qs, s.Meets o q fault n := by
  induction qs with
  | nil => exact .inl ⟨[], by rw [each], List.forall_mem_nil _, List.forall_mem_nil _⟩
  | cons q qs ih =>
    obtain ⟨hq, hqs⟩ := List.forall_mem_cons.1 hqs
    rw [each]
    cases hq with
    | fails herror hmeets =>
      exact .inr ⟨_, _, by rw [herror]; rfl, q, List.mem_cons_self, hmeets⟩
    | finds hmatches hordered hnone =>
      rw [hmatches]
      rcases ih hqs with ⟨lists, hlists, hall, hnone'⟩ | ⟨fault, n, herror, q', hq', hmeets⟩
      · exact .inl ⟨_ :: lists, by rw [hlists]; rfl, List.forall_mem_cons.2 ⟨hordered, hall⟩,
          List.forall_mem_cons.2 ⟨hnone, hnone'⟩⟩
      · exact .inr ⟨fault, n, by rw [herror]; rfl, q', List.mem_cons_of_mem q hq', hmeets⟩

/-- **An alternative**, whose operands settle. -/
theorem settles_disj (hcancelled : o.cancelled = false) (position : Nat) {qs : List Query}
    (hqs : ∀ q ∈ qs, s.Settles o q) : s.Settles o (.disj position qs) := by
  have hmatch := matches?_disj (s := s) hcancelled position qs
  rcases each_settles hqs with ⟨lists, hlists, hall, hnone⟩ | ⟨fault, n, herror, q, hq, hmeets⟩
  · have hmatches : s.matches? o (.disj position qs) = .ok (.uniteAll lists) := by
      rw [hmatch, hlists]
      rfl
    refine .finds hmatches (Matches.ordered_uniteAll hall) fun fault n hmeets ↦ ?_
    cases hmeets with
    | disj hq hmeets => exact hnone _ hq fault n hmeets
  · exact .fails (by rw [hmatch, herror]; rfl) (.disj hq hmeets)

/-! ### Trees -/

/-- **On a sound index every query settles**: its matches are found, in order, if no fault is met,
and else its evaluation fails with a fault that is met. -/
theorem settles (h : s.index.IsSound) (hcancelled : o.cancelled = false) (q : Query) :
    s.Settles o q := by
  induction q using Query.induct_lookedAt with
  | h t ih =>
    cases t with
    | word position text =>
      refine .of_exists ?_ fun _ _ hmeets ↦ by cases hmeets
      rw [matches?_word hcancelled]
      exact exists_matchWord h.inOrder hcancelled text
    | wildcard position start => exact settles_wildcard h hcancelled position start
    | phrase position text words =>
      refine .of_exists ?_ fun _ _ hmeets ↦ by cases hmeets
      rw [matches?_phrase hcancelled]
      exact exists_matchPhrase h.inOrder _
    | neg position operand =>
      exact .fails (matches?_neg hcancelled position operand) (.neg position operand)
    | conj position qs =>
      exact settles_conj hcancelled position fun q hq ↦ ih q.unnegated (List.mem_map_of_mem hq)
    | disj position qs => exact settles_disj hcancelled position fun q hq ↦ ih q hq

end Concordance.Searcher
