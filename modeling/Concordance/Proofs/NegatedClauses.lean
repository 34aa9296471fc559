import Concordance.Proofs.LoadedSearch

/-!
# Negated clauses only filter

A conjunction splits its operands apart: those without a sign find documents, and those with one
take documents away. On a sound index all lists of matches are in order, where taking away is
filtering (`Matches.subtract_eq_filter`), and filters can be put together and swapped. So the
matches of a conjunction are those of its operands without a sign, as they are and in place, less
the documents that some operand with a sign finds, wherever among the operands and in whatever order
those stand (`Searcher.conj_eq_filter`).

The loops stop early once no document is left. A filter makes nothing of nothing, so they lose
nothing by that.
-/

namespace Concordance.Searcher

variable {s : Searcher} {o : SearchOptions} {q : Query} {qs qs' : List Query}

/-- An operand with a sign takes the documents away that are found without the sign. -/
def takesAway (s : Searcher) (o : SearchOptions) (q : Query) (id : Bytes) : Bool :=
  q.isNegation &&
    match s.matches? o q.unnegated with
    | .ok ms => (ms.of? id).isSome
    | .error _ => false

theorem takesAway_eq_of?_isSome (hsign : q.isNegation = true) {ms : Matches}
    (hms : s.matches? o q.unnegated = .ok ms) (id : Bytes) :
    s.takesAway o q id = (ms.of? id).isSome := by
  rw [takesAway, hsign, hms, Bool.true_and]

/-! ### Operands with a sign, one and several -/

/-- **An operand with a sign filters.** -/
theorem narrow_eq_filter (hsound : s.index.IsSound) (hsign : q.isNegation = true)
    {ms : Matches} (hms : s.matches? o q.unnegated = .ok ms) {found : Matches}
    (hfound : found.Ordered) :
    s.narrow o found q = .ok (found.filter fun m ↦ !s.takesAway o q m.doc) := by
  rcases eq_or_ne found [] with rfl | hne
  · rfl
  · rw [narrow_of_ne_nil hne, hms, hsign]
    simp only [takesAway_eq_of?_isSome hsign hms]
    exact congrArg Except.ok
      (Matches.subtract_eq_filter hfound (ordered_of_matches? hsound hms))

/-- **Several filter one after the other**, which is to filter once. -/
theorem foldlM_narrow_eq_filter (hsound : s.index.IsSound)
    (hqs : ∀ q ∈ qs, q.isNegation = true ∧ ∃ ms, s.matches? o q.unnegated = .ok ms) :
    ∀ {found : Matches}, found.Ordered → qs.foldlM (s.narrow o) found =
      .ok (found.filter fun m ↦ !qs.any (s.takesAway o · m.doc)) := by
  induction qs with
  | nil =>
    intro found _
    exact congrArg Except.ok (List.filter_eq_self.2 fun _ _ ↦ rfl).symm
  | cons q qs ih =>
    intro found hfound
    obtain ⟨⟨hsign, ms, hms⟩, hqs⟩ := List.forall_mem_cons.1 hqs
    rw [List.foldlM_cons, narrow_eq_filter hsound hsign hms hfound, Passes.ok_bind,
      ih hqs (hfound.sublist List.filter_sublist), List.filter_filter]
    refine congrArg Except.ok (List.filter_congr fun m _ ↦ ?_)
    rw [List.any_cons, Bool.not_or, Bool.and_comm]

/-! ### The whole conjunction -/

/-- **The operands without a sign come first, and those with one narrow down what they find.** -/
theorem matches?_conj_eq_bind (hcancelled : o.cancelled = false)
    (hsome : qs.filter (!·.isNegation) ≠ []) (position : Nat) :
    s.matches? o (.conj position qs) =
      (do
        let found ← s.matches? o (.conj position (qs.filter (!·.isNegation)))
        (qs.filter (·.isNegation)).foldlM (s.narrow o) found) := by
  obtain ⟨first, others, hfilter⟩ := List.exists_cons_of_ne_nil hsome
  have hfirst : first.isNegation = false := by
    have hmem : first ∈ qs.filter (!·.isNegation) := hfilter ▸ List.mem_cons_self
    simpa using (List.mem_filter.1 hmem).2
  have hturn : Query.inTurn qs = first :: (others ++ qs.filter (·.isNegation)) := by
    rw [Query.inTurn, hfilter, List.cons_append]
  -- none of the operands without a sign has one
  have hturn' : Query.inTurn (qs.filter (!·.isNegation)) = first :: others := by
    rw [Query.inTurn, List.filter_filter, List.filter_filter, ← hfilter]
    simp
  rw [matches?_conj hcancelled hturn hfirst, matches?_conj hcancelled hturn' hfirst, bind_assoc]
  simp only [List.foldlM_append]

/-- **Negated clauses only filter.** On an index that passes its check, let a conjunction find
documents, and each of its negated operands too when it is taken without the sign. Then its operands
without a sign find documents by themselves, and the conjunction has just those of these matches,
unchanged and in the same order, whose document no negated operand takes away. Nor does it matter
where the negated operands stand among the others and in which order. -/
theorem conj_eq_filter {s : Searcher} {o : SearchOptions}
    (hcheck : s.index.check = .ok ()) {position : Nat} {qs : List Query} {ms : Matches}
    (hms : s.matches? o (.conj position qs) = .ok ms)
    (hnegated : ∀ q ∈ qs, q.isNegation = true → ∃ ns, s.matches? o q.unnegated = .ok ns) :
    (∃ found, s.matches? o (.conj position (qs.filter (!·.isNegation))) = .ok found ∧
      ms = found.filter fun m ↦ !qs.any (s.takesAway o · m.doc)) ∧
    ∀ qs' : List Query, qs'.filter (!·.isNegation) = qs.filter (!·.isNegation) →
      (qs'.filter (·.isNegation)).Perm (qs.filter (·.isNegation)) →
      s.matches? o (.conj position qs') = .ok ms := by
  have hsound := Index.check_eq_ok_iff.1 hcheck
  have hcancelled := not_cancelled_of_matches? hms
  have hsome : qs.filter (!·.isNegation) ≠ [] := by
    intro hnone
    rw [matches?_conj_of_all hcancelled fun q hq ↦ by
      simpa using List.filter_eq_nil_iff.1 hnone q hq] at hms
    cases hms
  -- what the operands without a sign find, and what is left of it
  rw [matches?_conj_eq_bind hcancelled hsome] at hms
  obtain ⟨found, hfound, hrest⟩ := Passes.bind_eq_ok_iff.1 hms
  have hordered := ordered_of_matches? hsound hfound
  have hsigns : ∀ q ∈ qs.filter (·.isNegation),
      q.isNegation = true ∧ ∃ ns, s.matches? o q.unnegated = .ok ns := fun q hq ↦
    have ⟨hmem, hsign⟩ := List.mem_filter.1 hq
    ⟨hsign, hnegated q hmem hsign⟩
  have hkept := Except.ok.inj (hrest.symm.trans (foldlM_narrow_eq_filter hsound hsigns hordered))
  refine ⟨⟨found, hfound, ?_⟩, fun qs' hpositive hperm ↦ ?_⟩
  · -- operands without a sign take nothing away
    rw [hkept]
    refine List.filter_congr fun m _ ↦ congrArg Bool.not ?_
    rw [List.any_filter]
    simp only [takesAway, Bool.and_self_left]
  · rw [matches?_conj_eq_bind hcancelled (hpositive ▸ hsome), hpositive, hfound, Passes.ok_bind,
      foldlM_narrow_eq_filter hsound (fun q hq ↦ hsigns q (hperm.mem_iff.1 hq)) hordered, hkept]
    exact congrArg Except.ok (List.filter_congr fun m _ ↦ congrArg Bool.not hperm.any_eq)

/-- Two negated operands, one before and one after the other operand, in an index of two documents
of which one is left. -/
theorem conj_eq_filter_two :
    let p : Posting := ⟨utf8 "1", [⟨utf8 "title", [0]⟩], 1⟩
    let p' : Posting := ⟨utf8 "2", [⟨utf8 "title", [0]⟩], 1⟩
    let r : Posting := ⟨utf8 "2", [⟨utf8 "title", [1]⟩], 1⟩
    let d : DocumentEntry := ⟨.ofList [(utf8 "title", 1)], [utf8 "hat"]⟩
    let d' : DocumentEntry := ⟨.ofList [(utf8 "title", 2)], [utf8 "hat", utf8 "red"]⟩
    let ix : Index := ⟨.ofList [(utf8 "hat", [p, p']), (utf8 "red", [r])],
      .ofList [(utf8 "1", d), (utf8 "2", d')], 3, 2⟩
    let s : Searcher := ⟨ix, {}, ⟨[]⟩, .tfidf, 0.5⟩
    let o : SearchOptions := {}
    let red : Query := .neg 0 (.word 1 (utf8 "red"))
    let blue : Query := .neg 9 (.wildcard 10 (utf8 "blu"))
    let hat : Query := .word 5 (utf8 "hat")
    ∃ ms, s.index.check = .ok () ∧ s.matches? o (.conj 0 [red, hat, blue]) = .ok ms ∧
      ms.map (·.doc) = [utf8 "1"] ∧
      (∀ q ∈ [red, hat, blue], q.isNegation = true → ∃ ns, s.matches? o q.unnegated = .ok ns) ∧
      (∃ found, s.matches? o (.conj 0 [hat]) = .ok found ∧
        ms = found.filter fun m ↦ !([red, hat, blue].any (s.takesAway o · m.doc))) ∧
      s.matches? o (.conj 0 [hat, blue, red]) = .ok ms := by
  intro p p' r d d' ix s o red blue hat
  have hcheck : s.index.check = .ok () := by rfl
  have hleft : List.map Match.doc <$> s.matches? o (.conj 0 [red, hat, blue]) =
      .ok [utf8 "1"] := by decide +kernel
  obtain ⟨ms, hms, hdocs⟩ := Passes.map_eq_ok_iff.1 hleft
  have hnegated : ∀ q ∈ [red, hat, blue], q.isNegation = true →
      ∃ ns, s.matches? o q.unnegated = .ok ns := by
    simp only [List.forall_mem_cons]
    exact ⟨fun _ ↦ ⟨_, rfl⟩, nofun, fun _ ↦ ⟨_, rfl⟩, nofun⟩
  obtain ⟨hfound, hperm⟩ := conj_eq_filter hcheck hms hnegated
  exact ⟨ms, hcheck, hms, hdocs, hnegated, hfound, hperm [hat, blue, red] rfl (.swap _ _ _)⟩

end Concordance.Searcher
