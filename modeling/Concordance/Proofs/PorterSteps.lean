import Concordance.Proofs.EndingTables
import Mathlib.Algebra.Ring.Nat

/-!
# The stemmer follows the rules

Each step of the stemmer makes of a word what the step of the algorithm does. Two of them do so in
their own way: a final `e` is judged by the measure of the word, which is that of what stands before
it, and at a word of one letter the stemmer stops, because the steps that are left have nothing to
take from one (`run_derivationSteps`).

With a result for each word (`exists_reduce?`) and no two by the rules, the stemmer is the algorithm
(`stem?_isStem_iff`).
-/

namespace Concordance.English

section Words

variable {rules : Rules} {r : Rule} {w v stem : Bytes}

/-! ### Single steps -/

/-- A step with a single rule looks for one ending only. -/
theorem selects_singleton (h : w = stem ++ r.ending) : Rules.Selects [r] w r stem :=
  ⟨List.mem_singleton_self r, h, fun _ hr _ ↦ List.mem_singleton.1 hr ▸ Nat.le_refl _⟩

/-- A word lacks one ending. -/
theorem lacks_singleton (h : ¬ r.ending <:+ w) : Rules.Lacks [r] w :=
  fun _ hr ↦ List.mem_singleton.1 hr ▸ h

/-- A table of which a word selects a rule by its measure. -/
theorem takes_apply {s : Step} {letter? : Bytes → Option UInt8} {under : UInt8 → Rules} {c : UInt8}
    (hspread : s.rules.Spread letter? under) (hc : letter? w = some c)
    (hallows : ∀ r stem, s.allows r stem ↔ 0 < runs stem)
    (hbecomes : ∀ r stem, s.becomes r stem (stem ++ r.replacement)) :
    s.Takes w ((under c).apply w) := by
  rcases hspread.lacks_or_selects s.ordered hc with ⟨hunder, hlacks⟩ | ⟨r, stem, hunder, hr⟩
  · rw [apply_of_lacks hunder]
    exact .passed hlacks
  · rw [apply_of_selects (s.ordered.sublist (hspread.sublist c)) hunder]
    split
    · rename_i hm
      exact .followed hr ((hallows r stem).2 hm) (hbecomes r stem)
    · rename_i hm
      exact .refused hr fun h ↦ hm ((hallows r stem).1 h)

/-- **Step 2**: the ending that is found by the letter before the last is the longest of the
list. -/
theorem takes_unpairSuffix (h : unpairSuffix w = some v) : Step.unpairSuffix.Takes w v := by
  obtain ⟨c, hc, h⟩ := Option.bind_eq_some_iff.1 h
  rw [← Option.some.inj h]
  exact takes_apply spread_doubleRules hc (fun _ _ ↦ .rfl) fun _ _ ↦ rfl

/-- **Step 3**, by the last letter. -/
theorem takes_shortenSuffix (h : shortenSuffix w = some v) : Step.shortenSuffix.Takes w v := by
  obtain ⟨c, hc, h⟩ := Option.bind_eq_some_iff.1 h
  rw [← Option.some.inj h]
  exact takes_apply spread_singleRules hc (fun _ _ ↦ .rfl) fun _ _ ↦ rfl

/-- **Step 4**, by the letter before the last. -/
theorem takes_dropSuffix (h : dropSuffix w = some v) : Step.dropSuffix.Takes w v := by
  obtain ⟨c, hc, h⟩ := Option.bind_eq_some_iff.1 h
  rcases spread_bareEndings.lacks_or_selects Step.dropSuffix.ordered hc with
    ⟨hunder, hlacks⟩ | ⟨r, stem, hunder, hr⟩
  · rw [findSome?_of_lacks hunder] at h
    exact Option.some.inj h ▸ .passed hlacks
  · obtain ⟨ending, hending, rfl⟩ := List.mem_map.1 hunder.mem
    have hion : Rule.bare ending = rule "ion" "" ↔ ending = utf8 "ion" :=
      ⟨congrArg Rule.ending, congrArg Rule.bare⟩
    rw [findSome?_of_selects (Step.dropSuffix.ordered.sublist (spread_bareEndings.sublist c))
      (eq_ion_of_suffix c) hunder] at h
    split at h
    · rename_i stem' hgoes
      obtain ⟨hword, hst⟩ := beforeBare?_eq_some_iff.1 hgoes
      obtain rfl : stem = stem' := List.append_cancel_right (hr.word.symm.trans hword)
      rw [← Option.some.inj h, measure_eq_runs]
      split
      · rename_i hm
        exact .followed hr ⟨hm, hst ∘ hion.1⟩ (List.append_nil stem).symm
      · rename_i hm
        exact .refused hr fun hallows ↦ hm hallows.1
    · rename_i hkept
      refine Option.some.inj h ▸ .refused hr fun hallows ↦ ?_
      have hgoes : beforeBare? ending w = some stem :=
        beforeBare?_eq_some_iff.2 ⟨hr.word, hallows.2 ∘ hion.2⟩
      rw [hkept] at hgoes
      cases hgoes

/-- **Step 1c**: a `y` behind a vowel becomes an `i`. -/
theorem takes_finalY (w : Bytes) : Step.finalY.Takes w (finalY w) := by
  rw [finalY]
  split
  · rename_i stem hstem
    have hr : Step.finalY.rules.Selects w (rule "y" "i") stem :=
      selects_singleton (before?_eq_some_iff.1 hstem)
    split
    · rename_i hvowel
      exact .followed hr ((hasVowel_iff stem).1 hvowel) rfl
    · rename_i hvowel
      exact .refused hr fun hallows ↦ hvowel ((hasVowel_iff stem).2 hallows)
  · rename_i hnone
    exact .passed (lacks_singleton (before?_eq_none_iff.1 hnone))

/-- **Step 5a**: an `e` goes by the measure and the form of what stands before it. -/
theorem takes_dropFinalE (h : dropFinalE w = some v) : Step.dropFinalE.Takes w v := by
  obtain ⟨c, hc, h⟩ := Option.bind_eq_some_iff.1 h
  split at h
  · rename_i hne
    refine Option.some.inj h ▸ .passed (lacks_singleton fun hsuffix ↦ hne ?_)
    exact Option.some.inj (hc.symm.trans (last?_of_suffix hsuffix rfl))
  · rename_i heq
    obtain rfl := not_not.1 heq
    have hword := eq_concat_of_last? hc
    have hr : Step.dropFinalE.rules.Selects w (rule "e" "") w.dropLast := selects_singleton hword
    have hm : measure w = runs w.dropLast := by
      rw [measure_eq_runs, ← runs_concat_vowel w.dropLast (b := 101) rfl, ← hword]
    rw [← Option.some.inj h, hm]
    split
    · rename_i hallows
      rw [endsShort_iff] at hallows
      exact .followed hr hallows (List.append_nil _).symm
    · rename_i hnot
      rw [endsShort_iff] at hnot
      exact .refused hr hnot

/-- **Step 5b**: one of two letters `l` goes. -/
theorem takes_singleFinalL (h : singleFinalL w = some v) : Step.singleFinalL.Takes w v := by
  obtain ⟨c, hc, h⟩ := Option.bind_eq_some_iff.1 h
  rw [← Option.some.inj h]
  split
  · rename_i hl
    obtain ⟨rfl, hdoubled, hm⟩ := hl
    obtain ⟨stem, b, rfl, -⟩ := (endsDoubled_iff w).1 hdoubled
    obtain rfl : b = 108 := by simpa [last?] using hc
    have hr : Step.singleFinalL.rules.Selects (stem ++ [108, 108]) (rule "ll" "l") stem :=
      selects_singleton rfl
    rw [measure_eq_runs] at hm
    refine .followed hr hm ?_
    show (stem ++ [108, 108]).dropLast = stem ++ [108]
    rw [List.dropLast_append_of_ne_nil (List.cons_ne_nil _ _)]
    rfl
  · rename_i hnot
    by_cases hsuffix : utf8 "ll" <:+ w
    · obtain ⟨stem, rfl⟩ := hsuffix
      have hr : Step.singleFinalL.rules.Selects (stem ++ utf8 "ll") (rule "ll" "l") stem :=
        selects_singleton rfl
      have hll : utf8 "ll" = [108, 108] := rfl
      have hletter : (stem ++ utf8 "ll").getD (stem.length + 1) 0 = 108 := by simp [hll]
      have hdoubled : EndsDoubled (stem ++ utf8 "ll") :=
        ⟨stem, 108, rfl, isConsonantAt_of_ne (hletter ▸ rfl) (hletter ▸ by decide)⟩
      refine .refused hr fun hallows ↦ hnot ⟨?_, (endsDoubled_iff _).2 hdoubled, ?_⟩
      · exact Option.some.inj (hc.symm.trans (last?_of_suffix (List.suffix_append ..) rfl))
      · exact (measure_eq_runs _).symm ▸ hallows
    · exact .passed (lacks_singleton hsuffix)

/-- **Step 1a**: the endings in `s`, of which the longest counts. -/
theorem takes_plural (hw : 2 ≤ w.length) (h : plural w = some v) : Step.plural.Takes w v := by
  obtain ⟨c, hc, h⟩ := Option.bind_eq_some_iff.1 h
  split at h
  · rename_i hne
    have hall : ∀ r ∈ Step.plural.rules, last? r.ending = some 115 := by decide
    refine Option.some.inj h ▸ .passed fun r hr hsuffix ↦ hne ?_
    exact Option.some.inj (hc.symm.trans (last?_of_suffix hsuffix (hall r hr)))
  rename_i heq
  obtain rfl := not_not.1 heq
  split at h
  · rename_i stem hstem
    have hr : Step.plural.rules.Selects w (rule "sses" "ss") stem :=
        .of_first [] Step.plural.ordered rfl Rules.lacks_nil (before?_eq_some_iff.1 hstem)
    exact .followed hr trivial (Option.some.inj h).symm
  rename_i hsses
  have hsses : ¬ utf8 "sses" <:+ w := not_suffix hsses
  split at h
  · rename_i stem hstem
    have hr : Step.plural.rules.Selects w (rule "ies" "i") stem :=
      .of_first [_] Step.plural.ordered rfl (.cons hsses Rules.lacks_nil)
        (before?_eq_some_iff.1 hstem)
    exact .followed hr trivial (Option.some.inj h).symm
  rename_i hies
  have hies : ¬ utf8 "ies" <:+ w := not_suffix hies
  split at h
  · rename_i b hb
    split at h
    · rename_i hne
      have hss : ¬ utf8 "ss" <:+ w := fun hsuffix ↦
        hne (Option.some.inj (hb.symm.trans (penultimate?_of_suffix hsuffix rfl)))
      have hr : Step.plural.rules.Selects w (rule "s" "") w.dropLast :=
        .of_first [_, _, _] Step.plural.ordered rfl
          (.cons hsses (.cons hies (.cons hss Rules.lacks_nil))) (eq_concat_of_last? hc)
      exact .followed hr trivial ((Option.some.inj h).symm.trans (List.append_nil _).symm)
    · rename_i heq
      obtain rfl := not_not.1 heq
      have hword : w = w.dropLast.dropLast ++ utf8 "ss" := eq_append_of_penultimate? hc hb
      have hr : Step.plural.rules.Selects w (rule "ss" "ss") w.dropLast.dropLast :=
        .of_first [_, _] Step.plural.ordered rfl (.cons hsses (.cons hies Rules.lacks_nil)) hword
      exact .followed hr trivial ((Option.some.inj h).symm.trans hword)
  · rename_i hnone
    obtain ⟨b, hb⟩ := exists_penultimate? hw
    rw [hnone] at hb
    cases hb

/-- What becomes of a word that gets no lost `e` back. -/
theorem mends_of_lacks {c : UInt8} (hlacks : restorations.Lacks w) (hc : last? w = some c) :
    Mends w (if endsDoubled w then if c = 108 ∨ c = 115 ∨ c = 122 then w else w.dropLast
      else if measure w = 1 ∧ endsShort w then w ++ utf8 "e" else w) := by
  have hlsz : c ∈ utf8 "lsz" ↔ c = 108 ∨ c = 115 ∨ c = 122 := by
    have hbytes : utf8 "lsz" = [108, 115, 122] := rfl
    simp [hbytes]
  split
  · rename_i hdoubled
    have hdoubled := (endsDoubled_iff w).1 hdoubled
    split
    · rename_i hlast
      exact .doubled hlacks hdoubled ⟨c, hc, hlsz.2 hlast⟩
    · rename_i hlast
      refine .undoubled hlacks hdoubled fun b hb hmem ↦ hlast (hlsz.1 ?_)
      exact Option.some.inj (hb.symm.trans hc) ▸ hmem
  · rename_i hdoubled
    rw [endsDoubled_iff] at hdoubled
    split
    · rename_i hshort
      rw [measure_eq_runs, endsShort_iff] at hshort
      exact .lengthened hlacks hdoubled hshort
    · rename_i hshort
      rw [measure_eq_runs, endsShort_iff] at hshort
      exact .kept hlacks hdoubled hshort

/-- What is left without `ed` or `ing` is mended in one of three ways or left as it is. -/
theorem mends_mend (h : mend w = some v) : Mends w v := by
  rw [mend] at h
  split at h
  · rename_i stem hstem
    rw [← Option.some.inj h]
    exact .restored (.of_first [] ordered_restorations rfl Rules.lacks_nil
      (before?_eq_some_iff.1 hstem))
  rename_i hat
  have hat := not_suffix hat
  split at h
  · rename_i stem hstem
    rw [← Option.some.inj h]
    exact .restored (.of_first [_] ordered_restorations rfl (.cons hat Rules.lacks_nil)
      (before?_eq_some_iff.1 hstem))
  rename_i hbl
  have hbl := not_suffix hbl
  split at h
  · rename_i stem hstem
    rw [← Option.some.inj h]
    exact .restored (.of_first [_, _] ordered_restorations rfl
      (.cons hat (.cons hbl Rules.lacks_nil)) (before?_eq_some_iff.1 hstem))
  rename_i hiz
  obtain ⟨c, hc, h⟩ := Option.bind_eq_some_iff.1 h
  have hlacks : restorations.Lacks w :=
    .cons hat (.cons hbl (.cons (not_suffix hiz) Rules.lacks_nil))
  have hmends := mends_of_lacks hlacks hc
  split at h
  · rename_i hdoubled
    rw [if_pos hdoubled] at hmends
    exact Option.some.inj h ▸ hmends
  · rename_i hdoubled
    rw [if_neg hdoubled] at hmends
    exact Option.some.inj h ▸ hmends

/-- **Step 1b**: `eed`, `ed` and `ing`. -/
theorem takes_inflected (h : inflected w = some v) : Step.inflected.Takes w v := by
  rw [inflected] at h
  split at h
  · rename_i stem hstem
    have hword := before?_eq_some_iff.1 hstem
    have hr : Step.inflected.rules.Selects w (rule "eed" "ee") stem :=
      .of_first [] Step.inflected.ordered rfl Rules.lacks_nil hword
    rw [← Option.some.inj h, measure_eq_runs]
    split
    · rename_i hm
      refine .followed hr ((allows_eed stem).2 hm) ((becomes_eed ..).2 ?_)
      calc w.dropLast = (stem ++ utf8 "eed").dropLast := congrArg List.dropLast hword
        _ = stem ++ utf8 "ee" := List.dropLast_append_of_ne_nil (by decide)
    · rename_i hm
      exact .refused hr fun hallows ↦ hm ((allows_eed stem).1 hallows)
  · rename_i heed
    have heed := before?_eq_none_iff.1 heed
    split at h
    · rename_i stem hstem
      obtain ⟨r, hne, hr⟩ : ∃ r ≠ rule "eed" "ee", Step.inflected.rules.Selects w r stem := by
        rcases Option.or_eq_some_iff.1 hstem with hed | ⟨hed, hing⟩
        · exact ⟨rule "ed" "", by decide, .of_first [_] Step.inflected.ordered rfl
            (.cons heed Rules.lacks_nil) (before?_eq_some_iff.1 hed)⟩
        · exact ⟨rule "ing" "", by decide, .of_first [_, _] Step.inflected.ordered rfl
            (.cons heed (.cons (before?_eq_none_iff.1 hed) Rules.lacks_nil))
            (before?_eq_some_iff.1 hing)⟩
      split at h
      · rename_i hvowel
        exact .followed hr ((allows_of_ne_eed hne stem).2 ((hasVowel_iff stem).1 hvowel))
          ((becomes_of_ne_eed hne ..).2 (mends_mend h))
      · rename_i hvowel
        refine Option.some.inj h ▸ .refused hr fun hallows ↦ ?_
        exact hvowel ((hasVowel_iff stem).2 ((allows_of_ne_eed hne stem).1 hallows))
    · rename_i hnone
      obtain ⟨hed, hing⟩ := Option.or_eq_none_iff.1 hnone
      exact Option.some.inj h ▸ .passed (.cons heed (.cons (before?_eq_none_iff.1 hed)
        (.cons (before?_eq_none_iff.1 hing) Rules.lacks_nil)))

/-! ### All steps -/

/-- A positive measure takes two letters. -/
theorem two_le_of_runs (h : 0 < runs w) : 2 ≤ w.length :=
  two_le_of_measure (measure_eq_runs w ▸ h)

/-- A step leaves a word as it is if it follows no rule for it. -/
theorem takes_self {s : Step}
    (h : ∀ r stem, w = stem ++ r.ending → r ∈ s.rules → ¬ s.allows r stem) : s.Takes w w := by
  rcases Rules.lacks_or_selects s.ordered w with hlacks | ⟨r, stem, hr⟩
  · exact .passed hlacks
  · exact .refused hr (h r stem hr.word hr.mem)

/-- **A single letter stays what it is** once the inflected forms are gone: no measure is positive
in it, and no vowel stands before a `y`. -/
theorem run_derivationSteps (hw : w.length ≤ 1) : Run derivationSteps w w := by
  have hruns : ∀ (r : Rule) (stem : Bytes), w = stem ++ r.ending → ¬ 0 < runs stem := by
    intro r stem hword hm
    have htwo := two_le_of_runs hm
    rw [hword, List.length_append] at hw
    omega
  refine .step (takes_self fun r stem hword hr ⟨i, hi, _⟩ ↦ ?_)
    (.step (takes_self fun r stem hword _ ↦ hruns r stem hword)
      (.step (takes_self fun r stem hword _ ↦ hruns r stem hword)
        (.step (takes_self fun r stem hword _ hallows ↦ ?_)
          (.step (takes_self fun r stem hword _ hallows ↦ ?_)
            (.step (takes_self fun r stem hword _ hallows ↦ ?_) .done)))))
  · obtain rfl := List.mem_singleton.1 hr
    rw [hword, List.length_append] at hw
    have hy : (rule "y" "i").ending.length = 1 := rfl
    omega
  · exact hruns r stem hword (Nat.lt_of_succ_lt hallows.1)
  · exact hruns r stem hword (by rcases hallows with h | h <;> omega)
  · have htwo := two_le_of_runs (Nat.lt_of_succ_lt hallows)
    rw [← hword] at htwo
    omega

/-- What the stemmer's steps leave of a word is what the rules leave of it. -/
theorem run_of_reduce? (hw : 2 ≤ w.length) (h : reduce? w = some v) : Run porter w v := by
  obtain ⟨w₁, h₁, h⟩ := Option.bind_eq_some_iff.1 h
  obtain ⟨w₂, h₂, h⟩ := Option.bind_eq_some_iff.1 h
  refine .step (takes_plural hw h₁) (.step (takes_inflected h₂) ?_)
  split at h
  · rename_i hone
    exact Option.some.inj h ▸ run_derivationSteps hone
  · obtain ⟨w₄, h₄, h⟩ := Option.bind_eq_some_iff.1 h
    obtain ⟨w₅, h₅, h⟩ := Option.bind_eq_some_iff.1 h
    obtain ⟨w₆, h₆, h⟩ := Option.bind_eq_some_iff.1 h
    obtain ⟨w₇, h₇, h⟩ := Option.bind_eq_some_iff.1 h
    exact .step (takes_finalY w₂) (.step (takes_unpairSuffix h₄) (.step (takes_shortenSuffix h₅)
      (.step (takes_dropSuffix h₆) (.step (takes_dropFinalE h₇)
        (.step (takes_singleFinalL h) .done)))))

/-! ### The stemmer always comes to a result -/

/-- **No step fails** on a word that has letters, and enough of them are left for the next. -/
theorem exists_plural (hw : 0 < w.length) : ∃ v, plural w = some v := by
  obtain ⟨c, hc⟩ := exists_last? hw
  rw [plural, hc, Option.bind_eq_bind, Option.bind_some]
  repeat' split
  all_goals exact ⟨_, rfl⟩

/-- What is left without an ending can be mended. -/
theorem exists_mend (hw : 0 < w.length) : ∃ v, mend w = some v := by
  obtain ⟨c, hc⟩ := exists_last? hw
  rw [mend, hc, Option.bind_eq_bind, Option.bind_some]
  repeat' split
  all_goals exact ⟨_, rfl⟩

/-- So step 1b has a result for every word. -/
theorem exists_inflected (w : Bytes) : ∃ v, inflected w = some v := by
  rw [inflected]
  split
  · exact ⟨_, rfl⟩
  · split
    · split
      · rename_i hvowel
        exact exists_mend (length_pos_of_hasVowel hvowel)
      · exact ⟨_, rfl⟩
    · exact ⟨_, rfl⟩

theorem length_finalY (w : Bytes) : (finalY w).length = w.length := by
  rw [finalY]
  split
  · rename_i stem hstem
    rw [before?_eq_some_iff.1 hstem]
    split
    · rw [List.length_append, List.length_append]
      rfl
    · rfl
  · rfl

/-- Where a rule applies, a positive measure leaves two letters. -/
theorem two_le_apply (rules : Rules) (hw : 2 ≤ w.length) : 2 ≤ (rules.apply w).length := by
  induction rules with
  | nil => exact hw
  | cons r rules ih =>
    rw [Rules.apply]
    split
    · split
      · rename_i hm
        rw [List.length_append]
        exact Nat.le_add_right_of_le (two_le_of_measure hm)
      · exact hw
    · exact ih

theorem exists_unpairSuffix (hw : 2 ≤ w.length) : ∃ v, unpairSuffix w = some v ∧ 2 ≤ v.length := by
  obtain ⟨c, hc⟩ := exists_penultimate? hw
  exact ⟨(doubleRules c).apply w, Option.bind_eq_some_iff.2 ⟨c, hc, rfl⟩, two_le_apply _ hw⟩

theorem exists_shortenSuffix (hw : 2 ≤ w.length) :
    ∃ v, shortenSuffix w = some v ∧ 2 ≤ v.length := by
  obtain ⟨c, hc⟩ := exists_last? (w := w) (by omega)
  exact ⟨(singleRules c).apply w, Option.bind_eq_some_iff.2 ⟨c, hc, rfl⟩, two_le_apply _ hw⟩

theorem exists_dropSuffix (hw : 2 ≤ w.length) : ∃ v, dropSuffix w = some v := by
  obtain ⟨c, hc⟩ := exists_penultimate? hw
  rw [dropSuffix, hc, Option.bind_eq_bind, Option.bind_some]
  split <;> exact ⟨_, rfl⟩

theorem exists_dropFinalE (hw : 0 < w.length) : ∃ v, dropFinalE w = some v := by
  obtain ⟨c, hc⟩ := exists_last? hw
  rw [dropFinalE, hc, Option.bind_eq_bind, Option.bind_some]
  split <;> exact ⟨_, rfl⟩

theorem exists_singleFinalL (hw : 0 < w.length) : ∃ v, singleFinalL w = some v := by
  obtain ⟨c, hc⟩ := exists_last? hw
  exact ⟨_, Option.bind_eq_some_iff.2 ⟨c, hc, rfl⟩⟩

/-- **No word is without a result.** -/
theorem exists_reduce? (hw : 0 < w.length) : ∃ v, reduce? w = some v := by
  obtain ⟨w₁, h₁⟩ := exists_plural hw
  have hw₁ : 0 < w₁.length := (IsCut.plural hw h₁).1
  obtain ⟨w₂, h₂⟩ := exists_inflected w₁
  have hreduce : reduce? w = (if w₂.length ≤ 1 then some w₂ else
      (unpairSuffix (finalY w₂)).bind fun w ↦ (shortenSuffix w).bind fun w ↦
        (dropSuffix w).bind fun w ↦ (dropFinalE w).bind singleFinalL) := by
    rw [reduce?, h₁, Option.bind_eq_bind, Option.bind_some, h₂]
    rfl
  rw [hreduce]
  split
  · exact ⟨w₂, rfl⟩
  · rename_i htwo
    have htwo : 2 ≤ (finalY w₂).length := by
      rw [length_finalY]
      omega
    obtain ⟨w₄, h₄, hw₄⟩ := exists_unpairSuffix htwo
    obtain ⟨w₅, h₅, hw₅⟩ := exists_shortenSuffix hw₄
    obtain ⟨w₆, h₆⟩ := exists_dropSuffix hw₅
    have hw₆ : 0 < w₆.length := (IsCut.dropSuffix (by omega) h₆).1
    obtain ⟨w₇, h₇⟩ := exists_dropFinalE hw₆
    have hw₇ : 0 < w₇.length := (IsCut.dropFinalE hw₆ h₇).1
    rw [h₄, Option.bind_some, h₅, Option.bind_some, h₆, Option.bind_some, h₇, Option.bind_some]
    exact exists_singleFinalL hw₇

/-- A word is worked on if it has at least three bytes, all of them letters. -/
theorem not_kept_iff : ¬ (w.length ≤ 2 ∨ (!w.all isLetter) = true) ↔
    3 ≤ w.length ∧ w.all isLetter = true := by
  rw [not_or, Nat.not_le, Bool.not_eq_true', Bool.not_eq_false]
  rfl

/-- What the rules leave of a word, or the word itself if it is not worked on. -/
def IsStem (w v : Bytes) : Prop :=
  if 3 ≤ w.length ∧ w.all isLetter = true then Run porter w v else v = w

/-- The stem of a word all of which is read is what the rules leave of it, and nothing else. -/
theorem stem?_eq_some_iff (hshort : w.length < 2 ^ 31) :
    stem? w = some v ↔ IsStem w v := by
  rw [stem?, IsStem, reached_of_lt hshort]
  by_cases h : 3 ≤ w.length ∧ w.all isLetter = true
  · obtain ⟨u, hu⟩ := exists_reduce? (w := w) (by omega)
    have hrun : Run porter w u := run_of_reduce? (by omega) hu
    rw [if_pos h, if_neg (not_kept_iff.2 h), hu, Option.some.injEq]
    constructor
    · rintro rfl
      exact hrun
    · exact hrun.unique
  · rw [if_neg h, if_pos (not_not.1 (not_kept_iff.not.2 h)), Option.some.injEq, eq_comm]

/-- **A word that is not empty and not too long has a stem.** -/
theorem exists_stem? (hw : 0 < w.length) (hshort : w.length < 2 ^ 31) : ∃ v, stem? w = some v := by
  rw [stem?, reached_of_lt hshort]
  split
  · exact ⟨w, rfl⟩
  · exact exists_reduce? hw

/-- Nothing is read of a word of letters whose length in 32 bits is negative, and it has no stem,
though the rules leave one. -/
theorem stem?_eq_none (hletters : w.all isLetter = true) (hlength : w.length = 2 ^ 31) :
    stem? w = none ∧ ∃ v, IsStem w v := by
  have h : 3 ≤ w.length ∧ w.all isLetter = true := ⟨by omega, hletters⟩
  obtain ⟨v, hv⟩ := exists_reduce? (w := w) (by omega)
  refine ⟨?_, v, ?_⟩
  · rw [stem?, if_neg (not_kept_iff.2 h), reached_of_length_eq hlength, reduce?_nil]
  · rw [IsStem, if_pos h]
    exact run_of_reduce? (by omega) hv

/-- There are words of letters of any length. -/
theorem exists_letters (n : Nat) : ∃ w : Bytes, w.length = n ∧ w.all isLetter = true :=
  ⟨List.replicate n 97, List.length_replicate, List.all_eq_true.2 fun b hb ↦ by
    rw [List.eq_of_mem_replicate hb]
    decide⟩

end Words

/-- **The stemmer is Porter's rules**, as long as the length of a word is a word of 32 bits. A word
of at least three letters has the stem that the rules leave of it, and they leave no other; all
other words are their own stems. -/
theorem stem?_isStem_iff (n : Nat) :
    (∀ w, w.length ≤ n → ∀ v, stem? w = some v ↔ IsStem w v) ↔ n < 2 ^ 31 := by
  constructor
  · intro h
    by_contra hn
    obtain ⟨w, hlength, hletters⟩ := exists_letters (2 ^ 31)
    obtain ⟨hnone, v, hv⟩ := stem?_eq_none hletters hlength
    have hsome := (h w (by omega) v).2 hv
    rw [hnone] at hsome
    cases hsome
  · intro hn w hle v
    exact stem?_eq_some_iff (by omega)

end Concordance.English
