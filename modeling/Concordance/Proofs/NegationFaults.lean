import Concordance.Proofs.Conjunctions
import Concordance.Proofs.Occurrences

/-!
# Where the negation rule is enforced

The rule for negated clauses is enforced twice: by a check of the whole tree before an evaluation,
and by the evaluation itself where it comes to a negated clause on its own or to a conjunction that
has nothing else. The evaluation takes the signs off the operands of a conjunction before it looks
at them (`Query.lookedAt`), so it goes through other trees than the check does. Still a tree that
passes the check passes it in all that is looked at (`Query.IsLookedAt.checkNegation`), and no
clause fails for a sign on its own. So after the check the faults of signs are out of reach, on
every index and under all options (`Searcher.failsOnly_matches?`).
-/

namespace Concordance

/-- An error is about a negated clause that is out of place. -/
def Error.IsOfSigns (e : Error) : Prop :=
  ∃ position, e = .query .loneNegation position ∨ e = .query .onlyNegations position

/-- The queries that an evaluation may look at: the query itself, and what is looked at for any of
them. -/
inductive Query.IsLookedAt : Query → Query → Prop
  | root (t : Query) : IsLookedAt t t
  | operand {node q t : Query} (hq : q ∈ t.lookedAt) (h : IsLookedAt node q) : IsLookedAt node t

/-- **A tree that passes the check passes it in all that is looked at.** -/
theorem Query.IsLookedAt.checkNegation {node t : Query} (h : IsLookedAt node t)
    (hrule : t.checkNegation false = .ok ()) : node.checkNegation false = .ok () := by
  induction h with
  | root => exact hrule
  | operand hq _ ih => exact ih (checkNegation_of_mem_lookedAt hq hrule)

/-- A conjunction that passes the check has an operand without a sign. -/
theorem Query.exists_of_checkNegation {position : Nat} {qs : List Query}
    (h : (conj position qs).checkNegation false = .ok ()) : ∃ q ∈ qs, q.isNegation = false := by
  rw [Query.checkNegation] at h
  split at h
  · cases h
  · rename_i hall
    simpa using hall

namespace Searcher

open Passes

variable {s : Searcher} {o : SearchOptions}

/-! ### Clauses without operands -/

theorem failsOnly_documentStatistics (id : Bytes) (n : UInt32) :
    FailsOnly (¬ Error.IsOfSigns ·) (s.documentStatistics o id n) := by
  refine FailsOnly.bind ?_ fun length _ ↦ failsOnly_ok _
  rw [documentLength]
  split
  · exact failsOnly_error (by simp [Error.IsOfSigns])
  · exact failsOnly_ok _

/-- **A leaf never fails for a sign.** -/
theorem failsOnly_matchTerm (term : Bytes) (weight : Float) :
    FailsOnly (¬ Error.IsOfSigns ·) (s.matchTerm o term weight) := by
  refine failsOnly_filterMapM fun p _ ↦ ?_
  rw [matchPosting]
  split
  · exact failsOnly_ok none
  · exact (failsOnly_documentStatistics _ _).bind fun d _ ↦ failsOnly_ok _

theorem failsOnly_near (term : Bytes) :
    FailsOnly (¬ Error.IsOfSigns ·) (s.index.near term o.maxDistance o.cancelled) := by
  rw [Index.near]
  split_ifs
  · exact failsOnly_error (by simp [Error.IsOfSigns])
  · exact failsOnly_ok _
  · exact failsOnly_ok _
  · exact failsOnly_error (by simp [Error.IsOfSigns])
  · exact failsOnly_ok _

theorem failsOnly_matchExpansion (term : Bytes) :
    FailsOnly (¬ Error.IsOfSigns ·) (s.matchExpansion o term) := by
  refine FailsOnly.bind ?_ fun weights _ ↦ ?_
  · rw [expansion]
    split_ifs
    · refine FailsOnly.bind ?_ fun near _ ↦ failsOnly_ok _
      exact failsOnly_foldlM (fun t _ ws ↦ (failsOnly_near t).bind fun found _ ↦ failsOnly_ok _) ∅
    · exact failsOnly_ok _
  · exact (failsOnly_mapM fun e _ ↦ failsOnly_matchTerm e.1 e.2).bind fun lists _ ↦ failsOnly_ok _

theorem failsOnly_matchPhrasePosting (terms : ByteSet) (offsets : List UInt32)
    (lists : List Postings) (lead : Posting) (others : List Posting) : FailsOnly
      (¬ Error.IsOfSigns ·) (s.matchPhrasePosting o terms offsets lists lead others) := by
  rw [matchPhrasePosting]
  split
  · exact failsOnly_ok none
  · exact (failsOnly_documentStatistics _ _).bind fun d _ ↦ failsOnly_ok _

theorem failsOnly_matchPhrase (tokens : List Token) :
    FailsOnly (¬ Error.IsOfSigns ·) (s.matchPhrase o tokens) := by
  cases tokens with
  | nil => exact failsOnly_ok []
  | cons token tokens =>
    rw [matchPhrase]
    split
    · exact failsOnly_ok []
    · exact failsOnly_filterMapM fun row _ ↦ failsOnly_matchPhrasePosting _ _ _ row.1 row.2

theorem failsOnly_matchWord (text : Bytes) :
    FailsOnly (¬ Error.IsOfSigns ·) (s.matchWord o text) := by
  rw [matchWord]
  split
  · exact failsOnly_ok []
  · exact failsOnly_matchExpansion _
  · exact failsOnly_matchPhrase _

/-- The fault of a wildcard of several words is another one. -/
theorem failsOnly_matchWildcard (position : Nat) (start : Bytes) :
    FailsOnly (¬ Error.IsOfSigns ·) (s.matchWildcard o position start) := by
  rw [matchWildcard]
  split
  · exact failsOnly_ok []
  · exact (failsOnly_mapM fun t _ ↦ failsOnly_matchTerm t 1).bind fun lists _ ↦ failsOnly_ok _
  · exact failsOnly_error (by simp [Error.IsOfSigns])

/-! ### Trees -/

/-- One operand of a conjunction fails as it does without its sign. -/
theorem failsOnly_narrow {p : Error → Prop} {q : Query}
    (hq : FailsOnly p (s.matches? o q.unnegated)) (found : Matches) :
    FailsOnly p (s.narrow o found q) := by
  rw [narrow]
  split
  · exact failsOnly_ok []
  · exact hq.bind fun ms _ ↦ failsOnly_ok _

/-- The first loop of a conjunction finds nothing to begin with exactly if all operands have a
sign. -/
theorem positives_eq_none_iff {qs : List Query} :
    s.positives o none qs = .ok none ↔ ∀ q ∈ qs, q.isNegation = true := by
  have hfilter : (qs.filter (!·.isNegation)) = [] ↔ ∀ q ∈ qs, q.isNegation = true := by
    simp [List.filter_eq_nil_iff]
  rw [positives_none, ← hfilter]
  generalize qs.filter (!·.isNegation) = positive
  cases positive with
  | nil => exact iff_of_true rfl rfl
  | cons q rest =>
    refine iff_of_false (fun h ↦ ?_) (List.cons_ne_nil q rest)
    obtain ⟨first, -, h⟩ := bind_eq_ok_iff.1 h
    obtain ⟨found, -, h⟩ := map_eq_ok_iff.1 h
    cases h

/-- **After the check no evaluation fails for a sign.** -/
theorem failsOnly_matches? {t : Query} (hrule : t.checkNegation false = .ok ()) :
    FailsOnly (¬ Error.IsOfSigns ·) (s.matches? o t) := by
  rcases hcancelled : o.cancelled with _ | _
  · induction t using Query.induct_lookedAt with
    | h t ih =>
      have hbelow : ∀ q ∈ t.lookedAt, FailsOnly (¬ Error.IsOfSigns ·) (s.matches? o q) :=
        fun q hq ↦ ih q hq (Query.checkNegation_of_mem_lookedAt hq hrule)
      cases t with
      | word position text =>
        rw [matches?_word hcancelled]
        exact failsOnly_matchWord text
      | wildcard position start =>
        rw [matches?_wildcard hcancelled]
        exact failsOnly_matchWildcard position start
      | phrase position text words =>
        rw [matches?_phrase hcancelled]
        exact failsOnly_matchPhrase _
      | neg position operand => exact nomatch Query.isNegation_of_checkNegation hrule
      | conj position qs =>
        obtain ⟨q, rest, hturn, hsign⟩ :=
          Query.exists_inTurn (Query.exists_of_checkNegation hrule)
        have hmem : ∀ q' ∈ q :: rest,
            FailsOnly (¬ Error.IsOfSigns ·) (s.matches? o q'.unnegated) :=
          fun q' hq' ↦ hbelow _ (List.mem_map_of_mem (Query.mem_inTurn.1 (hturn ▸ hq')))
        obtain ⟨hq, hrest⟩ := List.forall_mem_cons.1 hmem
        rw [Query.unnegated_of_isNegation hsign] at hq
        rw [matches?_conj hcancelled hturn hsign]
        exact hq.bind fun first _ ↦
          failsOnly_foldlM (fun q' hq' found ↦ failsOnly_narrow (hrest q' hq') found) first
      | disj position qs =>
        rw [matches?_disj hcancelled, each_eq_mapM]
        exact (failsOnly_mapM hbelow).map _
  · rw [matches?_of_cancelled hcancelled]
    exact failsOnly_error (by simp [Error.IsOfSigns])

end Searcher

/-! ### The rule as a whole -/

/-- **The negation rule is checked exactly, and the check is enough for the evaluation.** A tree
passes if and only if each of its nodes keeps to the rule: a negated clause is an operand of a
conjunction, and a conjunction has an operand that is not negated. Else the check fails with the
fault and the position of the first node in pre-order that does not. A tree that passes never leads
an evaluation to a negated clause on its own nor to a conjunction without an operand to begin with,
whatever it searches, and its evaluation never fails for a sign. -/
theorem Query.checkNegation_exact (t : Query) :
    (t.checkNegation false = .ok () ↔ ∀ x ∈ t.occurrences none, x.Keeps) ∧
    (∀ e, t.checkNegation false = .error e ↔ ∃ before x after fault,
      t.occurrences none = before ++ x :: after ∧ (∀ y ∈ before, y.Keeps) ∧ ¬ x.Keeps ∧
        x.fault? = some fault ∧ e = .query fault x.node.position) ∧
    (t.checkNegation false = .ok () → ∀ (s : Searcher) (o : SearchOptions),
      (∀ node : Query, node.IsLookedAt t → node.isNegation = false ∧ (node.isConjunction = true →
        s.positives o none node.operands ≠ .ok none)) ∧
      ∀ e, s.matches? o t = .error e → ¬ e.IsOfSigns) := by
  have hpass : t.checkNegation false = (t.occurrences none).forM Occurrence.check :=
    t.checkNegation_eq_forM none
  refine ⟨?_, fun e ↦ ?_, fun hrule s o ↦ ⟨fun node hnode ↦ ?_, Searcher.failsOnly_matches? hrule⟩⟩
  · rw [hpass, Passes.forM_eq_ok_iff]
    exact forall₂_congr fun x _ ↦ Occurrence.check_eq_ok_iff
  · rw [hpass, Passes.forM_eq_error_iff]
    simp only [Occurrence.check_eq_ok_iff, Occurrence.check_eq_error_iff]
    constructor
    · intro ⟨before, x, after, hlist, hbefore, fault, hfault, he⟩
      have hx : ¬ x.Keeps := by
        rw [← Occurrence.fault?_eq_none_iff, hfault]
        exact Option.some_ne_none fault
      exact ⟨before, x, after, fault, hlist, hbefore, hx, hfault, he⟩
    · intro ⟨before, x, after, fault, hlist, hbefore, _, hfault, he⟩
      exact ⟨before, x, after, hlist, hbefore, fault, hfault, he⟩
  · have hrule' := hnode.checkNegation hrule
    refine ⟨isNegation_of_checkNegation hrule', fun hconj ↦ ?_⟩
    cases node with
    | conj position qs =>
      obtain ⟨q, hq, hsign⟩ := exists_of_checkNegation hrule'
      intro hnone
      rw [Searcher.positives_eq_none_iff.1 hnone q hq] at hsign
      cases hsign
    | _ => cases hconj

/-- A negated clause beside a word passes, and no evaluation fails for its sign. -/
theorem Query.checkNegation_exact_conj :
    let t : Query := .conj 0 [.word 0 (utf8 "hat"), .neg 4 (.disj 5 [])]
    t.checkNegation false = .ok () ∧
      ∀ (s : Searcher) (o : SearchOptions) (e : Error), s.matches? o t = .error e →
        ¬ e.IsOfSigns := by
  intro t
  obtain ⟨-, -, hsearch⟩ := checkNegation_exact t
  exact ⟨rfl, fun s o ↦ (hsearch rfl s o).2⟩

end Concordance
