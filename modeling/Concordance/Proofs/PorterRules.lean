import Mathlib.Data.List.Pairwise
import Concordance.Proofs.Measure

/-!
# Porter's rules

The stem of an English word by rules alone. A `Step` is a table of endings with what may stand in
their place and the condition on which it does. Of the endings in its table that a word has, the
longest selects the rule (`Rules.Selects`), and no other rule is looked at, whether the condition
holds or not (`Step.Takes`). The steps follow each other as `porter` lists them (`Run`).

The order of a table plays no part in that. But a table can be written such that an ending stands in
front of all that it is the end of (`Rules.Ordered`), and then the first ending that a word has is
the longest. So a word selects one rule at most, and the rules leave one result for each word
(`Run.unique`).
-/

namespace Concordance.English

/-! ### Tables and steps -/

/-- A word selects a rule of a table by the longest of the table's endings that it has. -/
structure Rules.Selects (rules : Rules) (w : Bytes) (r : Rule) (stem : Bytes) : Prop where
  mem : r ∈ rules
  word : w = stem ++ r.ending
  longest : ∀ r' ∈ rules, r'.ending <:+ w → r'.ending.length ≤ r.ending.length

/-- A word has none of the endings in a table. -/
def Rules.Lacks (rules : Rules) (w : Bytes) : Prop :=
  ∀ r ∈ rules, ¬ r.ending <:+ w

/-- An ending stands in front of all that it is the end of. So the first that a word has is the
longest. -/
def Rules.Ordered (rules : Rules) : Prop :=
  rules.Pairwise fun r r' ↦ ¬ r.ending <:+ r'.ending

instance (rules : Rules) : Decidable rules.Ordered :=
  inferInstanceAs (Decidable (rules.Pairwise fun r r' ↦ ¬ r.ending <:+ r'.ending))

/-- A step of the algorithm: the rules of which a word selects one, when the selected rule is
followed, told from what stands before the ending, and what becomes of the word then. -/
structure Step where
  rules : Rules
  allows : Rule → Bytes → Prop
  becomes : Rule → Bytes → Bytes → Prop := fun r stem v ↦ v = stem ++ r.replacement
  ordered : rules.Ordered := by decide
  unique : ∀ {r stem v v'}, becomes r stem v → becomes r stem v' → v = v' := by
    exact fun h h' ↦ h.trans h'.symm

/-- What a step makes of a word. -/
inductive Step.Takes (s : Step) (w : Bytes) : Bytes → Prop
  | followed {r stem v} (hr : s.rules.Selects w r stem) (hallows : s.allows r stem)
      (hv : s.becomes r stem v) : s.Takes w v
  | refused {r stem} (hr : s.rules.Selects w r stem) (hallows : ¬ s.allows r stem) : s.Takes w w
  | passed (hlacks : s.rules.Lacks w) : s.Takes w w

/-- What steps make of a word, one after the other. -/
inductive Run : List Step → Bytes → Bytes → Prop
  | done {w} : Run [] w w
  | step {s steps u v w} (hstep : s.Takes u v) (hrun : Run steps v w) : Run (s :: steps) u w

variable {rules : Rules} {r r' : Rule} {w v v' stem stem' : Bytes}

theorem Rules.lacks_nil : Rules.Lacks [] w :=
  List.forall_mem_nil _

theorem Rules.Lacks.cons (hr : ¬ r.ending <:+ w) (hrules : rules.Lacks w) :
    Rules.Lacks (r :: rules) w :=
  List.forall_mem_cons.2 ⟨hr, hrules⟩

/-- The first ending that a word has selects. -/
theorem Rules.Selects.of_first (before : Rules) {after : Rules} (hrules : rules.Ordered)
    (heq : rules = before ++ r :: after) (hbefore : before.Lacks w) (hw : w = stem ++ r.ending) :
    rules.Selects w r stem := by
  subst heq
  obtain ⟨-, hafter, -⟩ := List.pairwise_append.1 hrules
  refine ⟨List.mem_append_right _ List.mem_cons_self, hw, fun r' hr' hsuffix ↦ ?_⟩
  rcases List.mem_append.1 hr' with hr' | hr'
  · exact absurd hsuffix (hbefore r' hr')
  rcases List.mem_cons.1 hr' with rfl | hr'
  · exact Nat.le_refl _
  · refine Nat.le_of_not_lt fun hlt ↦ (List.pairwise_cons.1 hafter).1 r' hr' ?_
    exact List.suffix_of_suffix_length_le ⟨stem, hw.symm⟩ hsuffix (Nat.le_of_lt hlt)

/-- A word has none of the endings in front of the one that selects. -/
theorem Rules.Selects.lacks_before {before after : Rules} (hrules : rules.Ordered)
    (heq : rules = before ++ r :: after) (h : rules.Selects w r stem) : before.Lacks w := by
  subst heq
  obtain ⟨-, -, hbefore⟩ := List.pairwise_append.1 hrules
  intro r' hr' hsuffix
  have hle := h.longest r' (List.mem_append_left _ hr') hsuffix
  exact hbefore r' hr' r List.mem_cons_self
    (List.suffix_of_suffix_length_le hsuffix ⟨stem, h.word.symm⟩ hle)

/-- A word that has an ending of a table selects a rule. -/
theorem Rules.lacks_or_selects (hrules : rules.Ordered) (w : Bytes) :
    rules.Lacks w ∨ ∃ r stem, rules.Selects w r stem := by
  rcases hfind : rules.find? fun r ↦ r.ending.isSuffixOf w with - | r
  · refine .inl fun r hr hsuffix ↦ List.find?_eq_none.1 hfind r hr ?_
    exact List.isSuffixOf_iff_suffix.2 hsuffix
  · obtain ⟨hr, before, after, heq, hbefore⟩ := List.find?_eq_some_iff_append.1 hfind
    obtain ⟨stem, hword⟩ := List.isSuffixOf_iff_suffix.1 hr
    refine .inr ⟨r, stem, .of_first before hrules heq (fun r' hr' hsuffix ↦ ?_) hword.symm⟩
    have hnot := hbefore r' hr'
    rw [List.isSuffixOf_iff_suffix.2 hsuffix] at hnot
    cases hnot

/-- A word whose ending a rule has does not lack all endings. -/
theorem Rules.Selects.not_lacks (h : rules.Selects w r stem) : ¬ rules.Lacks w :=
  fun hlacks ↦ hlacks r h.mem ⟨stem, h.word.symm⟩

/-- No two rules of a table have the same ending. -/
theorem Rules.Ordered.eq_of_ending (hrules : rules.Ordered) (h : r ∈ rules) (h' : r' ∈ rules)
    (heq : r.ending = r'.ending) : r = r' := by
  have hsymm : Std.Symm fun r r' : Rule ↦ r.ending = r'.ending → r = r' :=
    ⟨fun _ _ h heq ↦ (h heq.symm).symm⟩
  have hdistinct : rules.Pairwise fun r r' ↦ r.ending = r'.ending → r = r' := by
    refine hrules.imp fun {r r'} hnot heq ↦ absurd ?_ hnot
    exact ⟨[], heq⟩
  exact hdistinct.forall_of_forall (fun _ _ _ ↦ rfl) h h' heq

/-- A word selects no two rules. -/
theorem Rules.Selects.unique (hrules : rules.Ordered) (h : rules.Selects w r stem)
    (h' : rules.Selects w r' stem') : r = r' ∧ stem = stem' := by
  have hsuffix : r.ending <:+ w := ⟨stem, h.word.symm⟩
  have hsuffix' : r'.ending <:+ w := ⟨stem', h'.word.symm⟩
  have hlength : r.ending.length = r'.ending.length :=
    Nat.le_antisymm (h'.longest r h.mem hsuffix) (h.longest r' h'.mem hsuffix')
  have hending : r.ending = r'.ending :=
    (List.suffix_of_suffix_length_le hsuffix hsuffix' (Nat.le_of_eq hlength)).eq_of_length hlength
  obtain rfl := hrules.eq_of_ending h.mem h'.mem hending
  exact ⟨rfl, List.append_cancel_right (h.word.symm.trans h'.word)⟩

/-- **A step makes one thing of a word.** -/
theorem Step.Takes.unique {s : Step} (h : s.Takes w v) (h' : s.Takes w v') : v = v' := by
  cases h with
  | followed hr hallows hv =>
    cases h' with
    | followed hr' _ hv' =>
      obtain ⟨rfl, rfl⟩ := hr.unique s.ordered hr'
      exact s.unique hv hv'
    | refused hr' hnot =>
      obtain ⟨rfl, rfl⟩ := hr.unique s.ordered hr'
      exact absurd hallows hnot
    | passed hlacks => exact absurd hlacks hr.not_lacks
  | refused hr hnot =>
    cases h' with
    | followed hr' hallows _ =>
      obtain ⟨rfl, rfl⟩ := hr.unique s.ordered hr'
      exact absurd hallows hnot
    | refused => rfl
    | passed => rfl
  | passed hlacks =>
    cases h' with
    | followed hr => exact absurd hlacks hr.not_lacks
    | refused => rfl
    | passed => rfl

/-- **Steps one after another have one result**, as each has. -/
theorem Run.unique {steps : List Step} (h : Run steps w v) (h' : Run steps w v') : v = v' := by
  induction h with
  | done => cases h'; rfl
  | step hstep _ ih =>
    cases h' with
    | step hstep' hrun' => exact ih (hstep.unique hstep' ▸ hrun')

/-! ### The algorithm -/

/-- Plurals: the rule for `ss` keeps the last letter from being taken for an ending. -/
def Step.plural : Step where
  rules := [rule "sses" "ss", rule "ies" "i", rule "ss" "ss", rule "s" ""]
  allows _ _ := True

/-- The endings that get their lost `e` back. -/
def restorations : Rules :=
  [rule "at" "ate", rule "bl" "ble", rule "iz" "ize"]

/-- What becomes of a word that `ed` or `ing` has been taken from. -/
inductive Mends (w : Bytes) : Bytes → Prop
  | restored {r : Rule} {stem : Bytes} (hr : restorations.Selects w r stem) :
      Mends w (stem ++ r.replacement)
  | undoubled (hlacks : restorations.Lacks w) (hdoubled : EndsDoubled w)
      (hlast : ∀ b ∈ w.getLast?, b ∉ utf8 "lsz") : Mends w w.dropLast
  | doubled (hlacks : restorations.Lacks w) (hdoubled : EndsDoubled w)
      (hlast : ∃ b ∈ w.getLast?, b ∈ utf8 "lsz") : Mends w w
  | lengthened (hlacks : restorations.Lacks w) (hdoubled : ¬ EndsDoubled w)
      (hshort : runs w = 1 ∧ EndsShort w) : Mends w (w ++ utf8 "e")
  | kept (hlacks : restorations.Lacks w) (hdoubled : ¬ EndsDoubled w)
      (hshort : ¬ (runs w = 1 ∧ EndsShort w)) : Mends w w

theorem ordered_restorations : restorations.Ordered := by
  decide

/-- There is one way to mend what is left. -/
theorem Mends.unique (h : Mends w v) (h' : Mends w v') : v = v' := by
  cases h with
  | restored hr =>
    cases h' with
    | restored hr' =>
      obtain ⟨rfl, rfl⟩ := hr.unique ordered_restorations hr'
      rfl
    | undoubled hlacks | doubled hlacks | lengthened hlacks | kept hlacks =>
      exact absurd hlacks hr.not_lacks
  | undoubled hlacks hdoubled hlast =>
    cases h' with
    | restored hr => exact absurd hlacks hr.not_lacks
    | undoubled => rfl
    | doubled _ _ hlast' =>
      obtain ⟨b, hb, hmem⟩ := hlast'
      exact absurd hmem (hlast b hb)
    | lengthened _ hnot | kept _ hnot => exact absurd hdoubled hnot
  | doubled hlacks hdoubled hlast =>
    cases h' with
    | restored hr => exact absurd hlacks hr.not_lacks
    | undoubled _ _ hlast' =>
      obtain ⟨b, hb, hmem⟩ := hlast
      exact absurd hmem (hlast' b hb)
    | doubled => rfl
    | lengthened _ hnot | kept _ hnot => exact absurd hdoubled hnot
  | lengthened hlacks hnot hshort =>
    cases h' with
    | restored hr => exact absurd hlacks hr.not_lacks
    | undoubled _ hdoubled | doubled _ hdoubled => exact absurd hdoubled hnot
    | lengthened => rfl
    | kept _ _ hshort' => exact absurd hshort hshort'
  | kept hlacks hnot hshort =>
    cases h' with
    | restored hr => exact absurd hlacks hr.not_lacks
    | undoubled _ hdoubled | doubled _ hdoubled => exact absurd hdoubled hnot
    | lengthened _ _ hshort' => exact absurd hshort' hshort
    | kept => rfl

/-- Past and progressive forms. -/
def Step.inflected : Step where
  rules := [rule "eed" "ee", rule "ed" "", rule "ing" ""]
  allows r stem := if r = rule "eed" "ee" then 0 < runs stem else HasVowel stem
  becomes r stem v := if r = rule "eed" "ee" then v = stem ++ r.replacement else Mends stem v
  ordered := by decide
  unique {r stem v v'} h h' := by
    split at h
    · rw [if_pos ‹_›] at h'
      exact h.trans h'.symm
    · rw [if_neg ‹_›] at h'
      exact h.unique h'

/-- The ending `eed` asks for a measure. -/
theorem allows_eed (stem : Bytes) :
    Step.inflected.allows (rule "eed" "ee") stem ↔ 0 < runs stem := by
  simp only [Step.inflected, if_true]

/-- The other endings of the step ask for a vowel. -/
theorem allows_of_ne_eed (h : r ≠ rule "eed" "ee") (stem : Bytes) :
    Step.inflected.allows r stem ↔ HasVowel stem :=
  .of_eq (if_neg h)

/-- The ending `eed` leaves `ee`. -/
theorem becomes_eed (stem v : Bytes) :
    Step.inflected.becomes (rule "eed" "ee") stem v ↔ v = stem ++ utf8 "ee" := by
  simp only [Step.inflected, if_true, rule]

/-- The others leave something to be mended. -/
theorem becomes_of_ne_eed (h : r ≠ rule "eed" "ee") (stem v : Bytes) :
    Step.inflected.becomes r stem v ↔ Mends stem v :=
  .of_eq (if_neg h)

/-- A final `y` behind a vowel. -/
def Step.finalY : Step where
  rules := [rule "y" "i"]
  allows _ stem := HasVowel stem

/-- Endings made of two suffixes. -/
def Step.unpairSuffix : Step where
  rules := [rule "ational" "ate", rule "tional" "tion", rule "enci" "ence", rule "anci" "ance",
    rule "izer" "ize", rule "bli" "ble", rule "alli" "al", rule "entli" "ent", rule "eli" "e",
    rule "ousli" "ous", rule "ization" "ize", rule "ation" "ate", rule "ator" "ate",
    rule "alism" "al", rule "iveness" "ive", rule "fulness" "ful", rule "ousness" "ous",
    rule "aliti" "al", rule "iviti" "ive", rule "biliti" "ble", rule "logi" "log"]
  allows _ stem := 0 < runs stem

/-- Endings in `ic`, `ful`, `ness` and the like. -/
def Step.shortenSuffix : Step where
  rules := [rule "icate" "ic", rule "ative" "", rule "alize" "al", rule "iciti" "ic",
    rule "ical" "ic", rule "ful" "", rule "ness" ""]
  allows _ stem := 0 < runs stem

/-- Endings that go altogether, `ion` only behind `s` or `t`. -/
def Step.dropSuffix : Step where
  rules := [rule "al" "", rule "ance" "", rule "ence" "", rule "er" "", rule "ic" "",
    rule "able" "", rule "ible" "", rule "ant" "", rule "ement" "", rule "ment" "",
    rule "ent" "", rule "ion" "", rule "ou" "", rule "ism" "", rule "ate" "", rule "iti" "",
    rule "ous" "", rule "ive" "", rule "ize" ""]
  allows r stem := 1 < runs stem ∧
    (r = rule "ion" "" → ∃ b ∈ stem.getLast?, b ∈ utf8 "st")

/-- A final `e`. -/
def Step.dropFinalE : Step where
  rules := [rule "e" ""]
  allows _ stem := 1 < runs stem ∨ (runs stem = 1 ∧ ¬ EndsShort stem)

/-- A final `ll`, in a word with a measure above one. -/
def Step.singleFinalL : Step where
  rules := [rule "ll" "l"]
  allows r stem := 1 < runs (stem ++ r.ending)

/-- The steps that are left to take once the inflected forms are gone. -/
def derivationSteps : List Step :=
  [.finalY, .unpairSuffix, .shortenSuffix, .dropSuffix, .dropFinalE, .singleFinalL]

/-- **Porter's algorithm**: its steps in order. -/
def porter : List Step :=
  .plural :: .inflected :: derivationSteps

end Concordance.English
