import Concordance.Proofs.PorterRules

/-!
# Looking endings up

The stemmer does not try all endings of a table. It goes by a letter of the word to a few of them
and takes the first that the word has. That is the one by which the word selects a rule: an ending
is listed under the letter that it has in that place itself (`Rules.Spread`), and those under one
letter keep the order of the whole table, in which the first is the longest (`apply_of_selects`).

The endings that go altogether are looked up with the condition that `ion` has. That changes nothing
either: where `ion` may not go, the word has no other of them (`findSome?_of_selects`).
-/

namespace Concordance.English

variable {rules : Rules} {r : Rule} {w stem : Bytes}

/-! ### Looking endings up -/

/-- Nothing stands before an ending that a word does not have. -/
theorem before?_eq_none_iff {ending : Bytes} : before? ending w = none ↔ ¬ ending <:+ w := by
  rw [before?, ← List.isSuffixOf_iff_suffix]
  split <;> simp_all

theorem not_suffix {ending : Bytes} (h : ∀ stem, before? ending w = some stem → False) :
    ¬ ending <:+ w :=
  fun ⟨stem, hword⟩ ↦ h stem (before?_eq_some_iff.2 hword.symm)

/-- A word ends in the last letter of its ending. -/
theorem last?_of_suffix {ending : Bytes} {c : UInt8} (h : ending <:+ w)
    (hc : last? ending = some c) : last? w = some c := by
  obtain ⟨stem, rfl⟩ := h
  have hlast : (stem ++ ending).getLast? = ending.getLast?.or stem.getLast? :=
    List.getLast?_append
  rw [last?, hlast, ← last?, hc]
  rfl

/-- The last letter but one of an ending is that of the word. -/
theorem penultimate?_of_suffix {ending : Bytes} {c : UInt8} (h : ending <:+ w)
    (hc : penultimate? ending = some c) : penultimate? w = some c := by
  obtain ⟨stem, rfl⟩ := h
  have hne : ending ≠ [] := by
    rintro rfl
    cases hc
  rw [penultimate?, List.dropLast_append_of_ne_nil hne]
  exact last?_of_suffix (List.suffix_append ..) hc

/-- A word with a last letter ends in it. -/
theorem eq_concat_of_last? {c : UInt8} (h : last? w = some c) : w = w.dropLast ++ [c] :=
  (List.dropLast_append_getLast? c h).symm

theorem eq_append_of_penultimate? {b c : UInt8} (hc : last? w = some c)
    (hb : penultimate? w = some b) : w = w.dropLast.dropLast ++ [b, c] :=
  calc w = w.dropLast ++ [c] := eq_concat_of_last? hc
    _ = (w.dropLast.dropLast ++ [b]) ++ [c] := by rw [← eq_concat_of_last? (w := w.dropLast) hb]
    _ = w.dropLast.dropLast ++ [b, c] := List.append_assoc ..

theorem exists_last? (h : 0 < w.length) : ∃ c, last? w = some c :=
  ⟨_, List.getLast?_eq_some_getLast (List.length_pos_iff.1 h)⟩

theorem exists_penultimate? (h : 2 ≤ w.length) : ∃ c, penultimate? w = some c := by
  refine exists_last? (w := w.dropLast) ?_
  rw [List.length_dropLast]
  omega

/-- A table that is spread over letters: each ending stands under the letter that `letter?` reads in
it and in any word that has the ending, and those under one letter keep their order. -/
structure Rules.Spread (rules : Rules) (letter? : Bytes → Option UInt8)
    (under : UInt8 → Rules) : Prop where
  reads : ∀ {ending w : Bytes} {c}, ending <:+ w → letter? ending = some c → letter? w = some c
  sublist : ∀ c, (under c).Sublist rules
  listed : ∀ r ∈ rules, ∃ c ∈ letter? r.ending, r ∈ under c

section Spread

variable {letter? : Bytes → Option UInt8} {under : UInt8 → Rules} {c : UInt8}

/-- All endings that a word has stand under its letter. -/
theorem Rules.Spread.mem (hspread : rules.Spread letter? under) (hc : letter? w = some c)
    (hr : r ∈ rules) (hsuffix : r.ending <:+ w) : r ∈ under c := by
  obtain ⟨c', hc', hr⟩ := hspread.listed r hr
  have heq := (hspread.reads hsuffix hc').symm.trans hc
  exact Option.some.inj heq ▸ hr

/-- **The endings under its letter are all that a word needs to be looked up in.** -/
theorem Rules.Spread.lacks_or_selects (hspread : rules.Spread letter? under)
    (hrules : rules.Ordered) (hc : letter? w = some c) :
    ((under c).Lacks w ∧ rules.Lacks w) ∨
      ∃ r stem, (under c).Selects w r stem ∧ rules.Selects w r stem := by
  have hmem : ∀ r ∈ rules, r.ending <:+ w → r ∈ under c :=
    fun r hr ↦ hspread.mem hc hr
  rcases Rules.lacks_or_selects (hrules.sublist (hspread.sublist c)) w with hlacks | ⟨r, stem, hr⟩
  · exact .inl ⟨hlacks, fun r hr hsuffix ↦ hlacks r (hmem r hr hsuffix) hsuffix⟩
  · refine .inr ⟨r, stem, hr, (hspread.sublist c).subset hr.mem, hr.word, fun r' hr' hsuffix ↦ ?_⟩
    exact hr.longest r' (hmem r' hr' hsuffix) hsuffix

end Spread

/-- **The rules of step 2 are spread** over the letter before the last. -/
theorem spread_doubleRules : Step.unpairSuffix.rules.Spread penultimate? doubleRules := by
  refine ⟨penultimate?_of_suffix, fun c ↦ ?_, by decide⟩
  rw [doubleRules]
  repeat refine iteInduction (motive := (List.Sublist · _)) (fun _ ↦ by decide) fun _ ↦ ?_
  decide

/-- Those of step 3 are spread over the last. -/
theorem spread_singleRules : Step.shortenSuffix.rules.Spread last? singleRules := by
  refine ⟨last?_of_suffix, fun c ↦ ?_, by decide⟩
  rw [singleRules]
  repeat refine iteInduction (motive := (List.Sublist · _)) (fun _ ↦ by decide) fun _ ↦ ?_
  decide

/-- An ending that nothing takes the place of. -/
def Rule.bare (ending : Bytes) : Rule :=
  ⟨ending, []⟩

/-- Those of step 4 are spread over the letter before the last. -/
theorem spread_bareEndings :
    Step.dropSuffix.rules.Spread penultimate? fun c ↦ (bareEndings c).map .bare := by
  refine ⟨penultimate?_of_suffix, fun c ↦ ?_, by decide⟩
  rw [bareEndings]
  repeat
    refine iteInduction (motive := fun l : List Bytes ↦ (l.map Rule.bare).Sublist _)
      (fun _ ↦ by decide) fun _ ↦ ?_
  decide

/-! ### The rule that is applied -/

/-- Endings that a word does not have are tried to no effect. -/
theorem apply_append {before : Rules} (h : before.Lacks w) (after : Rules) :
    Rules.apply (before ++ after) w = after.apply w := by
  induction before with
  | nil => rfl
  | cons r before ih =>
    obtain ⟨hr, hbefore⟩ := List.forall_mem_cons.1 h
    rw [List.cons_append, Rules.apply, before?_eq_none_iff.2 hr]
    exact ih hbefore

/-- Without any of the endings a word stays as it is. -/
theorem apply_of_lacks (h : rules.Lacks w) : rules.apply w = w := by
  rw [← List.append_nil rules, apply_append h]
  rfl

/-- The rule that a word selects is the one that is applied. -/
theorem apply_of_selects (hrules : rules.Ordered) (h : rules.Selects w r stem) :
    rules.apply w = if 0 < runs stem then stem ++ r.replacement else w := by
  obtain ⟨before, after, heq⟩ := List.append_of_mem h.mem
  rw [heq, apply_append (h.lacks_before hrules heq), Rules.apply, before?_eq_some_iff.2 h.word,
    ← measure_eq_runs]

/-! ### The ending that goes -/

/-- What stands before an ending that may go. -/
theorem beforeBare?_eq_some_iff {ending : Bytes} : beforeBare? ending w = some stem ↔
    w = stem ++ ending ∧ (ending = utf8 "ion" → ∃ b ∈ stem.getLast?, b ∈ utf8 "st") := by
  have hst : utf8 "st" = [115, 116] := rfl
  have hmem : (∃ b ∈ stem.getLast?, b ∈ utf8 "st") ↔
      stem.getLast? = some 115 ∨ stem.getLast? = some 116 := by
    rcases stem.getLast? with - | b <;> simp [hst]
  rw [beforeBare?, Option.filter_eq_some_iff, before?_eq_some_iff, hmem]
  simp only [Bool.or_eq_true, bne_iff_ne, beq_iff_eq, ne_eq, or_assoc, Decidable.imp_iff_not_or]

/-- An ending that a word does not have does not go. -/
theorem beforeBare?_eq_none {ending : Bytes} (h : ¬ ending <:+ w) :
    beforeBare? ending w = none := by
  rw [beforeBare?, before?_eq_none_iff.2 h, Option.filter_none]

/-- Only `ion` may be kept although the word has it. -/
theorem eq_ion_of_beforeBare?_eq_none {ending : Bytes} (hword : w = stem ++ ending)
    (h : beforeBare? ending w = none) : ending = utf8 "ion" := by
  by_contra hne
  have hgoes : beforeBare? ending w = some stem :=
    beforeBare?_eq_some_iff.2 ⟨hword, fun heq ↦ absurd heq hne⟩
  rw [h] at hgoes
  cases hgoes

theorem findSome?_of_lacks {endings : List Bytes} (h : Rules.Lacks (endings.map .bare) w) :
    endings.findSome? (beforeBare? · w) = none :=
  List.findSome?_eq_none_iff.2 fun _ hmem ↦ beforeBare?_eq_none (h _ (List.mem_map_of_mem hmem))

/-- **The ending by which a word selects decides**: if `ion` may not go, no other ending does. -/
theorem findSome?_of_selects {endings : List Bytes} {ending : Bytes}
    (hendings : Rules.Ordered (endings.map .bare))
    (hion : ∀ e ∈ endings, e <:+ utf8 "ion" → e = utf8 "ion")
    (h : Rules.Selects (endings.map .bare) w (.bare ending) stem) :
    endings.findSome? (beforeBare? · w) = beforeBare? ending w := by
  obtain ⟨ending', hmem, heq⟩ := List.mem_map.1 h.mem
  obtain rfl : ending' = ending := congrArg Rule.ending heq
  obtain ⟨before, after, rfl⟩ := List.append_of_mem hmem
  have hmap : (before ++ ending' :: after).map Rule.bare =
      before.map .bare ++ .bare ending' :: after.map .bare := by
    rw [List.map_append, List.map_cons]
  rw [List.findSome?_append, findSome?_of_lacks (h.lacks_before hendings hmap), Option.none_or,
    List.findSome?_cons]
  rcases hgoes : beforeBare? ending' w with - | stem'
  · -- what else the word has would be shorter, and so an end of `ion`
    have hending : ending' = utf8 "ion" := eq_ion_of_beforeBare?_eq_none h.word hgoes
    refine List.findSome?_eq_none_iff.2 fun e he ↦ beforeBare?_eq_none fun hsuffix ↦ ?_
    have hmem : e ∈ before ++ ending' :: after :=
      List.mem_append_right _ (List.mem_cons_of_mem _ he)
    have hle := h.longest _ (List.mem_map_of_mem hmem) hsuffix
    have hend : e <:+ ending' := List.suffix_of_suffix_length_le hsuffix ⟨stem, h.word.symm⟩ hle
    rw [hmap] at hendings
    obtain ⟨-, hafter, -⟩ := List.pairwise_append.1 hendings
    refine (List.pairwise_cons.1 hafter).1 _ (List.mem_map_of_mem he) ?_
    have heq : ending' = e := hending.trans (hion e hmem (hending ▸ hend)).symm
    exact ⟨[], heq⟩
  · rfl

/-- None of the endings that may go is an end of `ion`. -/
theorem eq_ion_of_suffix (c : UInt8) :
    ∀ e ∈ bareEndings c, e <:+ utf8 "ion" → e = utf8 "ion" := by
  intro e he
  have hall : ∀ r ∈ Step.dropSuffix.rules, r.ending <:+ utf8 "ion" → r.ending = utf8 "ion" := by
    decide
  exact hall _ ((spread_bareEndings.sublist c).subset (List.mem_map_of_mem he))

end Concordance.English
