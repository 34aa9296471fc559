import Concordance.Proofs.Passes
import Concordance.Proofs.Stem
import Mathlib.Algebra.Ring.Nat

/-!
# The lengths of stems

No stem is empty. For English words this is because a step takes an ending off only if what stands
before it has a vowel or a positive measure, and so has letters, and because a single letter has no
measure (`English.two_le_of_measure`). Moreover no step makes a word longer than it was before the
ending went (`English.IsCut.reduce`).

For Russian words it is because all endings lie in regions that begin behind the first vowel: a stem
is a beginning of the word that reaches at least so far (`Russian.stemChars_keeps`).
-/

namespace Concordance

namespace English

/-! ### Measures and endings -/

/-- Vowels that no consonant follows are not counted. -/
theorem countRuns_eq_zero {flags : List Bool} (h : flags.dropWhile (!·) = []) :
    countRuns flags = 0 := by
  rw [countRuns]
  split
  · rfl
  · rename_i heq
    rw [h] at heq
    cases heq

/-- A word with a positive measure has a vowel and a consonant. -/
theorem two_le_of_measure {w : Bytes} (h : 0 < measure w) : 2 ≤ w.length := by
  match w with
  | [] => exact absurd (countRuns_eq_zero rfl) (Nat.ne_of_gt h)
  | [b] =>
    -- the one letter is skipped if it is a consonant, and a run that nothing follows if it is not
    have hone : ∀ c : Bool, countRuns ([c].dropWhile id) = 0 := by
      intro c
      cases c <;> exact countRuns_eq_zero rfl
    exact absurd (hone _) (Nat.ne_of_gt h)
  | _ :: _ :: w =>
    rw [List.length_cons, List.length_cons]
    omega

/-- A word with a vowel has a letter. -/
theorem length_pos_of_hasVowel {w : Bytes} (h : hasVowel w = true) : 0 < w.length := by
  cases w with
  | nil => cases h
  | cons b w => exact Nat.succ_pos _

/-- A word that ends in the same letter twice has two letters. -/
theorem two_le_of_endsDoubled {w : Bytes} (h : endsDoubled w = true) : 2 ≤ w.length := by
  rw [endsDoubled] at h
  split at h
  · rename_i heq _
    rw [← List.length_reverse, heq, List.length_cons, List.length_cons]
    omega
  · cases h

/-- A word is what stands before its ending and the ending. -/
theorem length_before {ending w stem : Bytes} (h : before? ending w = some stem) :
    stem.length + ending.length = w.length := by
  rw [before?_eq_some_iff.1 h, List.length_append]

/-! ### The steps -/

/-- A word that is cut: something is left, and it is not longer than the word. -/
def IsCut (w r : Bytes) : Prop :=
  0 < r.length ∧ r.length ≤ w.length

/-- A word that is not empty may be left as it is. -/
theorem IsCut.refl {w : Bytes} (h : 0 < w.length) : IsCut w w :=
  ⟨h, Nat.le_refl _⟩

/-- **Cuts follow one another.** -/
theorem IsCut.trans {u v w : Bytes} (h : IsCut u v) (h' : IsCut v w) : IsCut u w :=
  ⟨h'.1, Nat.le_trans h'.2 h.2⟩

/-- The last of at least two letters may be dropped. -/
theorem isCut_dropLast {w : Bytes} (h : 2 ≤ w.length) : IsCut w w.dropLast := by
  rw [IsCut, List.length_dropLast]
  omega

/-- An ending may have a shorter one in its place, if that is there or something stands before
it. -/
theorem isCut_replace {ending w stem replacement : Bytes} (h : before? ending w = some stem)
    (hle : replacement.length ≤ ending.length) (hpos : 0 < stem.length ∨ 0 < replacement.length) :
    IsCut w (stem ++ replacement) := by
  have hlength := length_before h
  rw [IsCut, List.length_append]
  omega

variable {w r : Bytes}

/-- Rules cut a word, if no replacement is longer than its ending: a rule that asks for a measure
leaves something in front of the ending. -/
theorem IsCut.apply {rules : Rules} (hw : 0 < w.length)
    (hrules : ∀ r ∈ rules, r.replacement.length ≤ r.ending.length) : IsCut w (rules.apply w) := by
  induction rules with
  | nil => exact .refl hw
  | cons rule rules ih =>
    obtain ⟨hrule, hrules⟩ := List.forall_mem_cons.1 hrules
    rw [Rules.apply]
    split
    · rename_i stem heq
      split
      · rename_i hmeasure
        have htwo := two_le_of_measure hmeasure
        exact isCut_replace heq hrule (.inl (by omega))
      · exact .refl hw
    · exact ih hrules

/-- Rules whose replacements are not longer than their endings, by looking at each. -/
theorem length_replacement {rules : Rules}
    (h : (rules.all fun r ↦ r.replacement.length ≤ r.ending.length) = true) :
    ∀ r ∈ rules, r.replacement.length ≤ r.ending.length :=
  fun r hr ↦ of_decide_eq_true (List.all_eq_true.1 h r hr)

/-- The rules for double suffixes put nothing longer in the place of an ending. -/
theorem length_doubleRules (c : UInt8) :
    ∀ r ∈ doubleRules c, r.replacement.length ≤ r.ending.length := by
  refine length_replacement ?_
  unfold doubleRules
  repeat' split
  all_goals decide

/-- Neither do those for single suffixes. -/
theorem length_singleRules (c : UInt8) :
    ∀ r ∈ singleRules c, r.replacement.length ≤ r.ending.length := by
  refine length_replacement ?_
  unfold singleRules
  repeat' split
  all_goals decide

/-- **Step 1a** cuts a word. -/
theorem IsCut.plural (hw : 0 < w.length) (h : plural w = some r) : IsCut w r := by
  obtain ⟨c, -, h⟩ := Option.bind_eq_some_iff.1 h
  split at h
  · exact Option.some.inj h ▸ .refl hw
  split at h
  · rename_i stem heq
    exact Option.some.inj h ▸ isCut_replace heq (by decide) (.inr (by decide))
  split at h
  · rename_i stem heq
    exact Option.some.inj h ▸ isCut_replace heq (by decide) (.inr (by decide))
  split at h
  · rename_i b hb
    rw [← Option.some.inj h]
    split
    · -- the `s` goes, and the letter before it stays
      have hpos : 0 < w.dropLast.length := List.length_pos_of_mem (List.mem_of_getLast? hb)
      rw [List.length_dropLast] at hpos
      exact isCut_dropLast (by omega)
    · exact .refl hw
  · exact Option.some.inj h ▸ .refl hw

/-- Mending puts one letter back at most. -/
theorem length_mend (hw : 0 < w.length) (h : mend w = some r) :
    0 < r.length ∧ r.length ≤ w.length + 1 := by
  have hcut : ∀ {v : Bytes}, IsCut w v → 0 < v.length ∧ v.length ≤ w.length + 1 :=
    fun hv ↦ ⟨hv.1, Nat.le_succ_of_le hv.2⟩
  have hreplace : ∀ {ending stem replacement : Bytes}, before? ending w = some stem →
      replacement.length = ending.length + 1 →
        0 < (stem ++ replacement).length ∧ (stem ++ replacement).length ≤ w.length + 1 := by
    intro ending stem replacement heq hone
    have hlength := length_before heq
    rw [List.length_append]
    omega
  rw [English.mend] at h
  split at h
  · rename_i stem heq
    exact Option.some.inj h ▸ hreplace heq (by decide)
  split at h
  · rename_i stem heq
    exact Option.some.inj h ▸ hreplace heq (by decide)
  split at h
  · rename_i stem heq
    exact Option.some.inj h ▸ hreplace heq (by decide)
  obtain ⟨c, -, h⟩ := Option.bind_eq_some_iff.1 h
  split at h
  · rename_i hdoubled
    rw [← Option.some.inj h]
    split
    · exact hcut (.refl hw)
    · exact hcut (isCut_dropLast (two_le_of_endsDoubled hdoubled))
  · rw [← Option.some.inj h]
    split
    · rw [List.length_append]
      exact ⟨Nat.lt_of_lt_of_le hw (Nat.le_add_right ..), Nat.le_refl _⟩
    · exact hcut (.refl hw)

/-- **Step 1b** cuts a word. What it mends grows by one letter, but the ending that has gone had at
least two. -/
theorem IsCut.inflected (hw : 0 < w.length) (h : inflected w = some r) : IsCut w r := by
  rw [English.inflected] at h
  split at h
  · rename_i stem heq
    have hlength : stem.length + 3 = w.length := length_before heq
    rw [← Option.some.inj h]
    split
    · exact isCut_dropLast (by omega)
    · exact .refl hw
  · split at h
    · rename_i stem heq
      have hlength : stem.length + 2 ≤ w.length := by
        rcases Option.or_eq_some_iff.1 heq with heq | ⟨-, heq⟩
        · exact Nat.le_of_eq (length_before heq)
        · exact Nat.le_trans (Nat.le_succ _) (Nat.le_of_eq (length_before heq))
      split at h
      · rename_i hvowel
        obtain ⟨hpos, hle⟩ := length_mend (length_pos_of_hasVowel hvowel) h
        exact ⟨hpos, by omega⟩
      · exact Option.some.inj h ▸ .refl hw
    · exact Option.some.inj h ▸ .refl hw

/-- **Step 1c** puts one letter in the place of another. -/
theorem IsCut.finalY (hw : 0 < w.length) : IsCut w (finalY w) := by
  rw [English.finalY]
  split
  · rename_i stem heq
    split
    · exact isCut_replace heq (by decide) (.inr (by decide))
    · exact .refl hw
  · exact .refl hw

theorem IsCut.unpairSuffix (hw : 0 < w.length) (h : unpairSuffix w = some r) : IsCut w r := by
  obtain ⟨c, -, h⟩ := Option.bind_eq_some_iff.1 h
  exact Option.some.inj h ▸ .apply hw (length_doubleRules c)

theorem IsCut.shortenSuffix (hw : 0 < w.length) (h : shortenSuffix w = some r) : IsCut w r := by
  obtain ⟨c, -, h⟩ := Option.bind_eq_some_iff.1 h
  exact Option.some.inj h ▸ .apply hw (length_singleRules c)

theorem IsCut.dropSuffix (hw : 0 < w.length) (h : dropSuffix w = some r) : IsCut w r := by
  obtain ⟨c, -, h⟩ := Option.bind_eq_some_iff.1 h
  split at h
  · rename_i stem heq
    obtain ⟨ending, -, hbare⟩ := List.exists_of_findSome?_eq_some heq
    obtain ⟨hbefore, -⟩ := Option.filter_eq_some_iff.1 hbare
    have hlength := length_before hbefore
    rw [← Option.some.inj h]
    split
    · rename_i hmeasure
      have htwo := two_le_of_measure (Nat.lt_of_succ_lt hmeasure)
      exact ⟨by omega, by omega⟩
    · exact .refl hw
  · exact Option.some.inj h ▸ .refl hw

/-- **Step 5a** drops an `e` behind a positive measure only. -/
theorem IsCut.dropFinalE (hw : 0 < w.length) (h : dropFinalE w = some r) : IsCut w r := by
  obtain ⟨c, -, h⟩ := Option.bind_eq_some_iff.1 h
  split at h
  · exact Option.some.inj h ▸ .refl hw
  · rw [← Option.some.inj h]
    split
    · rename_i hmeasure
      exact isCut_dropLast (two_le_of_measure (by omega))
    · exact .refl hw

/-- **Step 5b** drops one of two letters. -/
theorem IsCut.singleFinalL (hw : 0 < w.length) (h : singleFinalL w = some r) : IsCut w r := by
  obtain ⟨c, -, h⟩ := Option.bind_eq_some_iff.1 h
  rw [← Option.some.inj h]
  split
  · rename_i hl
    exact isCut_dropLast (two_le_of_endsDoubled hl.2.1)
  · exact .refl hw

/-- **All steps together cut a word**: something is left of it, and no more than it was. -/
theorem IsCut.reduce (hw : 0 < w.length) (h : reduce? w = some r) : IsCut w r := by
  obtain ⟨w₁, h₁, h⟩ := Option.bind_eq_some_iff.1 h
  obtain ⟨w₂, h₂, h⟩ := Option.bind_eq_some_iff.1 h
  have hw₁ : IsCut w w₁ := .plural hw h₁
  have hw₂ : IsCut w w₂ := hw₁.trans (.inflected hw₁.1 h₂)
  split at h
  · exact Option.some.inj h ▸ hw₂
  · obtain ⟨w₄, h₄, h⟩ := Option.bind_eq_some_iff.1 h
    obtain ⟨w₅, h₅, h⟩ := Option.bind_eq_some_iff.1 h
    obtain ⟨w₆, h₆, h⟩ := Option.bind_eq_some_iff.1 h
    obtain ⟨w₇, h₇, h⟩ := Option.bind_eq_some_iff.1 h
    have hw₃ : IsCut w (English.finalY w₂) := hw₂.trans (.finalY hw₂.1)
    have hw₄ : IsCut w w₄ := hw₃.trans (.unpairSuffix hw₃.1 h₄)
    have hw₅ : IsCut w w₅ := hw₄.trans (.shortenSuffix hw₄.1 h₅)
    have hw₆ : IsCut w w₆ := hw₅.trans (.dropSuffix hw₅.1 h₆)
    have hw₇ : IsCut w w₇ := hw₆.trans (.dropFinalE hw₆.1 h₇)
    exact hw₇.trans (.singleFinalL hw₇.1 h)

/-- A word without letters has no result. -/
theorem reduce?_nil : reduce? [] = none :=
  rfl

/-- **A stem is not empty and not longer than the word.** -/
theorem isCut_stem? (hw : 0 < w.length) (h : stem? w = some r) : IsCut w r := by
  rw [stem?] at h
  split at h
  · exact Option.some.inj h ▸ .refl hw
  · have hreached : 0 < (reached w).length := by
      refine List.length_pos_iff.2 fun hnil ↦ ?_
      rw [hnil, reduce?_nil] at h
      cases h
    obtain ⟨hpos, hle⟩ := IsCut.reduce hreached h
    exact ⟨hpos, Nat.le_trans hle (reached_isPrefix w).length_le⟩

/-- **No stem is empty or longer than its word.** -/
theorem isCut_stem (hw : 0 < w.length) : IsCut w (stem w) := by
  rw [stem]
  rcases h : stem? w with _ | r
  · exact .refl hw
  · exact isCut_stem? hw h

end English

namespace Russian

/-! ### Regions -/

/-- The first region begins before the one that a vowel and a consonant open. -/
theorem afterVowel_le_afterClosed (w : List Char) : afterVowel w ≤ afterClosed w := by
  match w with
  | [] => exact Nat.le_refl 0
  | [c] =>
    show (if isVowel c then 1 else 1) ≤ 1
    split <;> exact Nat.le_refl 1
  | a :: b :: w =>
    have ih := afterVowel_le_afterClosed (b :: w)
    rw [afterVowel, afterClosed]
    rcases ha : isVowel a with _ | _
    · exact Nat.add_le_add_left ih 1
    · rw [if_pos rfl]
      split <;> omega

/-- It begins in the word or at its end. -/
theorem afterVowel_le_length (w : List Char) : afterVowel w ≤ w.length := by
  induction w with
  | nil => exact Nat.le_refl 0
  | cons c w ih =>
    rw [afterVowel, List.length_cons]
    split <;> omega

/-- No region begins at the first character. -/
theorem afterVowel_pos {w : List Char} (h : w ≠ []) : 0 < afterVowel w := by
  obtain ⟨c, w, rfl⟩ := List.exists_cons_of_ne_nil h
  rw [afterVowel]
  split <;> omega

/-- The region of derivational endings begins no earlier than that of the others. -/
theorem rv_le_r2 (w : List Char) : (regions w).rv ≤ (regions w).r2 :=
  Nat.le_trans (afterVowel_le_afterClosed w) (Nat.le_add_right ..)

/-! ### Taking endings off -/

/-- So many characters at the end of a word lie in the region from `start` on. -/
def Fits (start : Nat) (w : List Char) (n : Nat) : Prop :=
  n = 0 ∨ start + n ≤ w.length

/-- A word is cut behind its first `start` characters, if at all. -/
def IsCutBehind (start : Nat) (w r : List Char) : Prop :=
  r <+: w ∧ (start ≤ w.length → start ≤ r.length)

variable {start : Nat} {w : List Char}

/-- What ends behind a place ends behind an earlier one. -/
theorem Fits.of_le {first n : Nat} (h : Fits start w n) (hle : first ≤ start) : Fits first w n :=
  h.imp_right (Nat.le_trans (Nat.add_le_add_right hle n))

theorem IsCutBehind.refl (start : Nat) (w : List Char) : IsCutBehind start w w :=
  ⟨List.prefix_rfl, id⟩

/-- Cuts behind one place follow one another. -/
theorem IsCutBehind.trans {u v w : List Char} (h : IsCutBehind start u v)
    (h' : IsCutBehind start v w) : IsCutBehind start u w :=
  ⟨h'.1.trans h.1, h'.2 ∘ h.2⟩

/-- An ending that fits behind a place may go. -/
theorem isCutBehind_chop {n : Nat} (h : Fits start w n) : IsCutBehind start w (chop w n) := by
  refine ⟨List.take_prefix _ _, fun hstart ↦ ?_⟩
  rw [Fits] at h
  rw [chop, List.length_take]
  omega

/-- An ending that a word has in a region lies in it. -/
theorem fits_of_hasEnding {afterA : Bool} {ending : List Char}
    (h : hasEnding start afterA w ending = true) : Fits start w ending.length := by
  rw [hasEnding, Bool.and_eq_true, Bool.and_eq_true, decide_eq_true_eq] at h
  have hle : ending.length ≤ w.length := (List.isSuffixOf_iff_suffix.1 h.1.1).length_le
  exact .inr (by omega)

/-- So its last character may go. -/
theorem isCutBehind_chop_one {afterA : Bool} {ending : List Char} (hne : ending ≠ [])
    (h : hasEnding start afterA w ending = true) : IsCutBehind start w (chop w 1) := by
  have hpos := List.length_pos_iff.2 hne
  have hfits := fits_of_hasEnding h
  rw [Fits] at hfits
  exact isCutBehind_chop (.inr (by omega))

/-- **So does the longest ending of a table.** -/
theorem fits_longest (table : Endings) (start : Nat) (afterA : Bool) (w : List Char) :
    Fits start w (longest table start afterA w) := by
  refine Passes.inv_foldl (fun _ best ↦ Fits start w best) ?_ (.inl rfl)
  intro _ ending _ best _ hbest
  split
  · rename_i h
    exact fits_of_hasEnding (Bool.and_eq_true_iff.1 h).2
  · exact hbest

/-- The longest ending of two tables fits behind the place that it is looked for from. -/
theorem fits_longestOfTwo (free afterA : Endings) (start : Nat) (w : List Char) :
    Fits start w (longestOfTwo free afterA start w) := by
  rw [longestOfTwo]
  rcases Nat.le_total (longest free start false w) (longest afterA start true w) with h | h
  · rw [Nat.max_eq_right h]
    exact fits_longest afterA start true w
  · rw [Nat.max_eq_left h]
    exact fits_longest free start false w

/-! ### The steps -/

variable {r : Regions}

/-- **The first step cuts in the first region only**, and so do those that follow. -/
theorem isCutBehind_inflection (r : Regions) (w : List Char) :
    IsCutBehind r.rv w (inflection r w) := by
  have hreflexive : IsCutBehind r.rv w (chop w (longest reflexive r.rv false w)) :=
    isCutBehind_chop (fits_longest ..)
  rw [inflection]
  split
  · exact isCutBehind_chop (fits_longestOfTwo ..)
  dsimp only
  split
  · exact (hreflexive.trans (isCutBehind_chop (fits_longest ..))).trans
      (isCutBehind_chop (fits_longestOfTwo ..))
  split
  · exact hreflexive.trans (isCutBehind_chop (fits_longestOfTwo ..))
  · exact hreflexive.trans (isCutBehind_chop (fits_longest ..))

theorem isCutBehind_finalI (r : Regions) (w : List Char) : IsCutBehind r.rv w (finalI r w) := by
  rw [finalI]
  split
  · rename_i h
    exact isCutBehind_chop_one (by decide) h
  · exact .refl ..

/-- This one keeps to a region inside the first. -/
theorem isCutBehind_derivation (h : r.rv ≤ r.r2) (w : List Char) :
    IsCutBehind r.rv w (derivation r w) :=
  isCutBehind_chop ((fits_longest ..).of_le h)

theorem isCutBehind_singleN (r : Regions) (w : List Char) : IsCutBehind r.rv w (singleN r w) := by
  rw [singleN]
  split
  · rename_i h
    exact isCutBehind_chop_one (by decide) h
  · exact .refl ..

theorem isCutBehind_tidy (r : Regions) (w : List Char) : IsCutBehind r.rv w (tidy r w) := by
  rw [tidy]
  split
  · rename_i h
    exact isCutBehind_chop_one (by decide) h
  dsimp only
  split
  · exact (isCutBehind_chop (fits_longest ..)).trans (isCutBehind_singleN r _)
  split
  · rename_i h
    exact isCutBehind_chop_one (by decide) h
  · exact .refl ..

/-- **A stem is a beginning of its word that reaches behind the first vowel.** The word is the one
in which `ё` is written `е`; if it has no vowel, the stem is all of it. -/
theorem stemChars_keeps (w : List Char) : stemChars w <+: w.map foldYo ∧
    (regions (w.map foldYo)).rv ≤ (stemChars w).length := by
  have hrv : (regions (w.map foldYo)).rv ≤ (w.map foldYo).length := afterVowel_le_length _
  rw [stemChars]
  split
  · exact ⟨List.prefix_rfl, hrv⟩
  · have hinflected := isCutBehind_inflection (regions (w.map foldYo)) (w.map foldYo)
    have hbase := hinflected.trans (isCutBehind_finalI (regions (w.map foldYo)) _)
    have hderived := hbase.trans (isCutBehind_derivation (rv_le_r2 (w.map foldYo)) _)
    have htidy := hderived.trans (isCutBehind_tidy (regions (w.map foldYo)) _)
    exact ⟨htidy.1, htidy.2 hrv⟩

/-- So no stem is empty. -/
theorem stemChars_ne_nil {w : List Char} (h : w ≠ []) : stemChars w ≠ [] := by
  have hpos : 0 < (regions (w.map foldYo)).rv := afterVowel_pos (by simpa using h)
  exact List.length_pos_iff.1 (Nat.lt_of_lt_of_le hpos (stemChars_keeps w).2)

end Russian

/-- **No word is lost because its stem is empty**, whatever the language, if its length is a word of
32 bits. -/
theorem Stemmer.stem_encode_ne_nil (s : Stemmer) {cs : List Char} (h : cs ≠ [])
    (hshort : (encode cs).length < 2 ^ 31) : s.stem (encode cs) ≠ [] := by
  have hword : encode cs ≠ [] := Utf8.encode_ne_nil h
  cases s with
  | english => exact List.length_pos_iff.1 (English.isCut_stem (List.length_pos_iff.2 hword)).1
  | russian =>
    show Russian.stem (encode cs) ≠ []
    rw [Russian.stem, reached_of_lt hshort, Utf8.decodeLossy_encode]
    split
    · exact hword
    · exact Utf8.encode_ne_nil (Russian.stemChars_ne_nil h)

end Concordance
