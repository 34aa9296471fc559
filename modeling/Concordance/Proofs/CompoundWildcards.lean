import Concordance.Proofs.Faults

/-!
# When a compound wildcard is refused

A wildcard that is more than one word is a fault of the query, but the evaluation finds it only when
it gets there. It always gets to a wildcard that is not behind other operands of a conjunction
(`Query.Exposes`), on any index. Behind others the documents decide: on a sound index the query is
refused exactly if a compound wildcard is met, and a conjunction whose first operands have no
document in common passes as an empty result whatever comes after them.
-/

namespace Concordance

namespace Query

/-- A compound wildcard stands where every evaluation arrives: at the root, in any operand of an
alternative, or in the operand of a conjunction that is looked at first. -/
inductive Exposes (a : Analyzer) : Query → Prop
  | wildcard {position : Nat} {start : Bytes} (h : 2 ≤ (a.analyze false start).length) :
      Exposes a (.wildcard position start)
  | conj {position : Nat} {qs rest : List Query} {q : Query} (hturn : inTurn qs = q :: rest)
      (hsign : q.isNegation = false) (h : Exposes a q) : Exposes a (.conj position qs)
  | disj {position : Nat} {qs : List Query} {q : Query} (hq : q ∈ qs) (h : Exposes a q) :
      Exposes a (.disj position qs)

theorem allHavePlainWildcards_iff {a : Analyzer} {qs : List Query} :
    AllHavePlainWildcards a qs ↔ ∀ q ∈ qs, q.HasPlainWildcards a := by
  induction qs with
  | nil => simp [AllHavePlainWildcards]
  | cons q qs ih => rw [AllHavePlainWildcards, ih, List.forall_mem_cons]

/-- The sign of a clause has no wildcard of its own. -/
theorem hasPlainWildcards_unnegated {a : Analyzer} (q : Query) :
    q.unnegated.HasPlainWildcards a ↔ q.HasPlainWildcards a := by
  cases q <;> rfl

end Query

namespace Searcher

variable {s : Searcher} {o : SearchOptions} {q : Query}

/-! ### Arriving at a wildcard -/

/-- Several queries fail together where one of them does. -/
theorem exists_each_error {qs : List Query} (hq : q ∈ qs) {e : Error}
    (herror : s.matches? o q = .error e) : ∃ e, s.each o qs = .error e := by
  induction qs with
  | nil => exact absurd hq List.not_mem_nil
  | cons q' qs ih =>
    rw [each]
    rcases hq' : s.matches? o q' with e' | ms
    · exact ⟨e', rfl⟩
    · rcases List.mem_cons.1 hq with rfl | hq
      · rw [herror] at hq'
        cases hq'
      · obtain ⟨e', hrest⟩ := ih hq
        exact ⟨e', by rw [hrest]; rfl⟩

/-- **A query that exposes a compound wildcard has no matches**, on any index. -/
theorem exists_error_of_exposes (hcancelled : o.cancelled = false)
    (h : q.Exposes s.analyzer) : ∃ e, s.matches? o q = .error e := by
  induction h with
  | @wildcard position start htokens =>
    refine ⟨.query .compoundWildcard position, ?_⟩
    rw [matches?_wildcard hcancelled, matchWildcard]
    split
    · rename_i hnil
      simp [hnil] at htokens
    · rename_i hone
      simp [hone] at htokens
    · rfl
  | conj hturn hsign _ ih =>
    obtain ⟨e, herror⟩ := ih
    exact ⟨e, by rw [matches?_conj hcancelled hturn hsign, herror]; rfl⟩
  | @disj position qs q hq _ ih =>
    obtain ⟨e, herror⟩ := ih
    obtain ⟨e', heach⟩ := exists_each_error hq herror
    exact ⟨e', by rw [matches?_disj hcancelled, heach]; rfl⟩

/-! ### What is met -/

/-- In a query that keeps the negation rule nothing is met but compound wildcards. -/
theorem Meets.eq_compoundWildcard {fault : QueryFault} {n : Nat} (h : s.Meets o q fault n) :
    q.checkNegation false = .ok () → fault = .compoundWildcard := by
  induction h with
  | wildcard => exact fun _ ↦ rfl
  | neg => exact fun hrule ↦ nomatch Query.isNegation_of_checkNegation hrule
  | @signs position qs hall =>
    intro hrule
    rw [Query.checkNegation, if_pos (List.all_eq_true.2 hall)] at hrule
    cases hrule
  | @conj position n qs before after q' fault _ hturn _ _ ih =>
    intro hrule
    have hmem : q' ∈ qs := Query.mem_inTurn.1 (hturn ▸ List.mem_append_right _ List.mem_cons_self)
    exact ih (Query.checkNegation_of_mem_lookedAt (List.mem_map_of_mem hmem) hrule)
  | @disj position n qs q' fault hq _ ih =>
    have hmem : q' ∈ (Query.disj position qs).lookedAt := hq
    exact fun hrule ↦ ih (Query.checkNegation_of_mem_lookedAt hmem hrule)

/-- A compound wildcard that is met is one of the query's. -/
theorem Meets.not_hasPlainWildcards {fault : QueryFault} {n : Nat} (h : s.Meets o q fault n) :
    fault = .compoundWildcard → ¬ q.HasPlainWildcards s.analyzer := by
  induction h with
  | wildcard htokens =>
    intro _ hplain
    rw [Query.HasPlainWildcards] at hplain
    omega
  | neg => exact nofun
  | signs => exact nofun
  | @conj position n qs before after q' fault _ hturn _ _ ih =>
    intro hfault hplain
    have hmem : q' ∈ qs := Query.mem_inTurn.1 (hturn ▸ List.mem_append_right _ List.mem_cons_self)
    exact ih hfault (q'.hasPlainWildcards_unnegated.2
      (Query.allHavePlainWildcards_iff.1 hplain q' hmem))
  | @disj position n qs q' fault hq _ ih =>
    intro hfault hplain
    exact ih hfault (Query.allHavePlainWildcards_iff.1 hplain q' hq)

/-! ### The whole evaluation -/

/-- On a sound index it comes to a ranking or to a compound wildcard that is met. -/
theorem evaluate_settles (h : s.index.IsSound) (hcancelled : o.cancelled = false)
    (hrule : q.checkNegation false = .ok ()) :
    (∃ ranking, s.evaluate o q = .ok ranking) ∧ (∀ n, ¬ s.Meets o q .compoundWildcard n) ∨
      ∃ n, s.evaluate o q = .error (.query .compoundWildcard n) ∧
        s.Meets o q .compoundWildcard n := by
  cases settles h hcancelled q with
  | finds hmatches hordered hnone =>
    exact .inl ⟨⟨_, evaluate_of_ordered hrule hmatches hordered⟩, hnone _⟩
  | @fails fault n herror hmeets =>
    obtain rfl := hmeets.eq_compoundWildcard hrule
    exact .inr ⟨n, evaluate_of_error hrule herror, hmeets⟩

/-- **When a compound wildcard is refused.** A query that keeps the negation rule and exposes a
compound wildcard is never evaluated to a ranking, whatever the index. On a sound index a query that
keeps the rule is refused for a compound wildcard exactly if one is met, and evaluated to a ranking
exactly if none is; one that is exposed is met, and none is where all wildcards are single words.
Between the two the documents decide: a compound wildcard behind other operands of a conjunction is
met only if these leave some document in common. -/
theorem evaluate_compoundWildcard {s : Searcher} {o : SearchOptions}
    (hcancelled : o.cancelled = false) {q : Query} (hrule : q.checkNegation false = .ok ()) :
    (q.Exposes s.analyzer → ∃ e, s.evaluate o q = .error e) ∧
      (s.index.IsSound →
        ((∃ n, s.evaluate o q = .error (.query .compoundWildcard n)) ↔
          ∃ n, s.Meets o q .compoundWildcard n) ∧
        ((∃ ranking, s.evaluate o q = .ok ranking) ↔ ∀ n, ¬ s.Meets o q .compoundWildcard n) ∧
        (q.Exposes s.analyzer → ∃ n, s.Meets o q .compoundWildcard n) ∧
        (q.HasPlainWildcards s.analyzer → ∀ n, ¬ s.Meets o q .compoundWildcard n)) := by
  have hexposes : q.Exposes s.analyzer → ∃ e, s.evaluate o q = .error e := by
    intro h
    obtain ⟨e, herror⟩ := exists_error_of_exposes hcancelled h
    exact ⟨e, by rw [evaluate_eq hrule, herror]; rfl⟩
  refine ⟨hexposes, fun hsound ↦ ?_⟩
  have hplain : q.HasPlainWildcards s.analyzer → ∀ n, ¬ s.Meets o q .compoundWildcard n :=
    fun h n hmeets ↦ hmeets.not_hasPlainWildcards rfl h
  rcases evaluate_settles hsound hcancelled hrule with
    ⟨⟨ranking, hok⟩, hnone⟩ | ⟨n, herror, hmeets⟩
  · refine ⟨⟨fun ⟨n, herror⟩ ↦ ?_, fun ⟨n, hmeets⟩ ↦ absurd hmeets (hnone n)⟩,
      ⟨fun _ ↦ hnone, fun _ ↦ ⟨ranking, hok⟩⟩, fun h ↦ ?_, hplain⟩
    · rw [hok] at herror
      cases herror
    · obtain ⟨e, herror⟩ := hexposes h
      rw [hok] at herror
      cases herror
  · refine ⟨⟨fun _ ↦ ⟨n, hmeets⟩, fun _ ↦ ⟨n, herror⟩⟩, ⟨fun ⟨ranking, hok⟩ ↦ ?_,
      fun hnone ↦ absurd hmeets (hnone n)⟩, fun _ ↦ ⟨n, hmeets⟩, hplain⟩
    rw [hok] at herror
    cases herror

/-- A compound wildcard as the second alternative, in an index with one document. -/
theorem evaluate_compoundWildcard_alternative :
    let p : Posting := ⟨utf8 "1", [⟨utf8 "title", [0]⟩], 1⟩
    let d : DocumentEntry := ⟨.ofList [(utf8 "title", 1)], [utf8 "hat"]⟩
    let ix : Index := ⟨.ofList [(utf8 "hat", [p])], .ofList [(utf8 "1", d)], 1, 1⟩
    let s : Searcher := ⟨ix, {}, ⟨[]⟩, .tfidf, 0.5⟩
    let o : SearchOptions := {}
    let q : Query := .disj 0 [.word 0 (utf8 "hat"), .wildcard 7 (utf8 "wi-fi")]
    o.cancelled = false ∧ q.checkNegation false = .ok () ∧ q.Exposes s.analyzer ∧
      s.index.IsSound ∧ ∃ n, s.evaluate o q = .error (.query .compoundWildcard n) := by
  intro p d ix s o q
  have htokens : 2 ≤ (s.analyzer.analyze false (utf8 "wi-fi")).length := by decide
  have hexposes : q.Exposes s.analyzer :=
    .disj (List.mem_cons_of_mem _ (List.mem_singleton_self _)) (.wildcard htokens)
  have hsound : s.index.IsSound := Index.check_eq_ok_iff.1 (by rfl)
  obtain ⟨-, hrefused⟩ := evaluate_compoundWildcard (s := s) (o := o) rfl (q := q) rfl
  obtain ⟨hiff, -, hmeets, -⟩ := hrefused hsound
  exact ⟨rfl, rfl, hexposes, hsound, hiff.2 (hmeets hexposes)⟩

end Searcher

end Concordance
