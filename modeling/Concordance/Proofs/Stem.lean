import Concordance.Stem.Stemmer
import Concordance.Proofs.Utf8

/-!
# Stems are texts

The stem of a well-formed word is well-formed. A Russian stem is written from characters, so there
is nothing to show. An English stem is cut and mended byte by byte; but only words of the letters
`a` to `z` are, and every step leaves such a word (`IsLetters`), because it takes letters off and
puts letters in their place.
-/

namespace Concordance

namespace English

/-- What stands before an ending makes the word with it. -/
theorem before?_eq_some_iff {ending w stem : Bytes} :
    before? ending w = some stem ↔ w = stem ++ ending := by
  rw [before?]
  constructor
  · intro h
    split at h
    · rename_i hsuffix
      obtain ⟨stem', rfl⟩ := List.isSuffixOf_iff_suffix.1 hsuffix
      rw [← Option.some.inj h, List.length_append, Nat.add_sub_cancel, List.take_left]
    · cases h
  · rintro rfl
    rw [if_pos (List.isSuffixOf_iff_suffix.2 (List.suffix_append ..)), List.length_append,
      Nat.add_sub_cancel, List.take_left]

/-- A word of the letters `a` to `z`. -/
def IsLetters (w : Bytes) : Prop :=
  ∀ b ∈ w, isLetter b = true

section Letters

variable {w v : Bytes}

/-- A test of each byte tells whether all are letters. -/
theorem isLetters_of_all (h : w.all isLetter = true) : IsLetters w :=
  List.all_eq_true.1 h

theorem IsLetters.append (hw : IsLetters w) (hv : IsLetters v) : IsLetters (w ++ v) :=
  fun b hb ↦ (List.mem_append.1 hb).elim (hw b) (hv b)

theorem IsLetters.dropLast (hw : IsLetters w) : IsLetters w.dropLast :=
  fun b hb ↦ hw b (List.dropLast_subset w hb)

/-- What stands before an ending is a part of the word. -/
theorem IsLetters.before {ending stem : Bytes} (hw : IsLetters w)
    (h : before? ending w = some stem) : IsLetters stem := by
  rw [before?_eq_some_iff.1 h] at hw
  exact fun b hb ↦ hw b (List.mem_append_left _ hb)

/-- Rules that put letters in the place of an ending keep a word of letters. -/
theorem IsLetters.apply {rules : Rules} (hw : IsLetters w)
    (hrules : ∀ r ∈ rules, IsLetters r.replacement) : IsLetters (rules.apply w) := by
  induction rules with
  | nil => exact hw
  | cons r rules ih =>
    obtain ⟨hr, hrules⟩ := List.forall_mem_cons.1 hrules
    rw [Rules.apply]
    split
    · rename_i stem heq
      split
      · exact (hw.before heq).append hr
      · exact hw
    · exact ih hrules

/-- Rules whose replacements are words of letters, by looking at each. -/
theorem isLetters_replacement {rules : Rules}
    (h : (rules.all fun r ↦ r.replacement.all isLetter) = true) :
    ∀ r ∈ rules, IsLetters r.replacement :=
  fun r hr ↦ isLetters_of_all (List.all_eq_true.1 h r hr)

/-- The replacements of double suffixes are made of letters. -/
theorem isLetters_doubleRules (c : UInt8) :
    ∀ r ∈ doubleRules c, IsLetters r.replacement := by
  refine isLetters_replacement ?_
  unfold doubleRules
  repeat' split
  all_goals decide

theorem isLetters_singleRules (c : UInt8) :
    ∀ r ∈ singleRules c, IsLetters r.replacement := by
  refine isLetters_replacement ?_
  unfold singleRules
  repeat' split
  all_goals decide

/-! ### The steps -/

/-- **No step brings in anything but letters**: what it puts in the place of an ending is made of
letters, and all else was there. -/
theorem IsLetters.plural {r : Bytes} (hw : IsLetters w) (h : plural w = some r) :
    IsLetters r := by
  have hss : IsLetters (utf8 "ss") := isLetters_of_all (by decide)
  have hi : IsLetters (utf8 "i") := isLetters_of_all (by decide)
  obtain ⟨c, -, h⟩ := Option.bind_eq_some_iff.1 h
  split at h
  · exact Option.some.inj h ▸ hw
  split at h
  · rename_i stem heq
    exact Option.some.inj h ▸ (hw.before heq).append hss
  split at h
  · rename_i stem heq
    exact Option.some.inj h ▸ (hw.before heq).append hi
  split at h
  · rw [← Option.some.inj h]
    split
    · exact hw.dropLast
    · exact hw
  · exact Option.some.inj h ▸ hw

/-- A letter that is put back is one. -/
theorem IsLetters.mend {r : Bytes} (hw : IsLetters w) (h : mend w = some r) : IsLetters r := by
  have hate : IsLetters (utf8 "ate") := isLetters_of_all (by decide)
  have hble : IsLetters (utf8 "ble") := isLetters_of_all (by decide)
  have hize : IsLetters (utf8 "ize") := isLetters_of_all (by decide)
  have he : IsLetters (utf8 "e") := isLetters_of_all (by decide)
  rw [English.mend] at h
  split at h
  · rename_i stem heq
    exact Option.some.inj h ▸ (hw.before heq).append hate
  split at h
  · rename_i stem heq
    exact Option.some.inj h ▸ (hw.before heq).append hble
  split at h
  · rename_i stem heq
    exact Option.some.inj h ▸ (hw.before heq).append hize
  obtain ⟨c, -, h⟩ := Option.bind_eq_some_iff.1 h
  split at h
  · rw [← Option.some.inj h]
    split
    · exact hw
    · exact hw.dropLast
  · rw [← Option.some.inj h]
    split
    · exact hw.append he
    · exact hw

theorem IsLetters.inflected {r : Bytes} (hw : IsLetters w) (h : inflected w = some r) :
    IsLetters r := by
  rw [English.inflected] at h
  split at h
  · rw [← Option.some.inj h]
    split
    · exact hw.dropLast
    · exact hw
  · split at h
    · rename_i stem heq
      have hstem : IsLetters stem := by
        rcases Option.or_eq_some_iff.1 heq with heq | ⟨-, heq⟩
        · exact hw.before heq
        · exact hw.before heq
      split at h
      · exact hstem.mend h
      · exact Option.some.inj h ▸ hw
    · exact Option.some.inj h ▸ hw

theorem IsLetters.finalY (hw : IsLetters w) : IsLetters (finalY w) := by
  have hi : IsLetters (utf8 "i") := isLetters_of_all (by decide)
  rw [English.finalY]
  split
  · rename_i stem heq
    split
    · exact (hw.before heq).append hi
    · exact hw
  · exact hw

theorem IsLetters.unpairSuffix {r : Bytes} (hw : IsLetters w) (h : unpairSuffix w = some r) :
    IsLetters r := by
  obtain ⟨c, -, h⟩ := Option.bind_eq_some_iff.1 h
  exact Option.some.inj h ▸ hw.apply (isLetters_doubleRules c)

theorem IsLetters.shortenSuffix {r : Bytes} (hw : IsLetters w) (h : shortenSuffix w = some r) :
    IsLetters r := by
  obtain ⟨c, -, h⟩ := Option.bind_eq_some_iff.1 h
  exact Option.some.inj h ▸ hw.apply (isLetters_singleRules c)

theorem IsLetters.dropSuffix {r : Bytes} (hw : IsLetters w) (h : dropSuffix w = some r) :
    IsLetters r := by
  obtain ⟨c, -, h⟩ := Option.bind_eq_some_iff.1 h
  split at h
  · rename_i stem heq
    obtain ⟨ending, -, hbare⟩ := List.exists_of_findSome?_eq_some heq
    obtain ⟨hbefore, -⟩ := Option.filter_eq_some_iff.1 hbare
    rw [← Option.some.inj h]
    split
    · exact hw.before hbefore
    · exact hw
  · exact Option.some.inj h ▸ hw

theorem IsLetters.dropFinalE {r : Bytes} (hw : IsLetters w) (h : dropFinalE w = some r) :
    IsLetters r := by
  obtain ⟨c, -, h⟩ := Option.bind_eq_some_iff.1 h
  split at h
  · exact Option.some.inj h ▸ hw
  · rw [← Option.some.inj h]
    split
    · exact hw.dropLast
    · exact hw

theorem IsLetters.singleFinalL {r : Bytes} (hw : IsLetters w) (h : singleFinalL w = some r) :
    IsLetters r := by
  obtain ⟨c, -, h⟩ := Option.bind_eq_some_iff.1 h
  rw [← Option.some.inj h]
  split
  · exact hw.dropLast
  · exact hw

/-- **All steps together leave a word of letters.** -/
theorem IsLetters.reduce {r : Bytes} (hw : IsLetters w) (h : reduce? w = some r) :
    IsLetters r := by
  obtain ⟨w₁, h₁, h⟩ := Option.bind_eq_some_iff.1 h
  obtain ⟨w₂, h₂, h⟩ := Option.bind_eq_some_iff.1 h
  have hw₂ : IsLetters w₂ := (hw.plural h₁).inflected h₂
  split at h
  · exact Option.some.inj h ▸ hw₂
  · obtain ⟨w₃, h₃, h⟩ := Option.bind_eq_some_iff.1 h
    obtain ⟨w₄, h₄, h⟩ := Option.bind_eq_some_iff.1 h
    obtain ⟨w₅, h₅, h⟩ := Option.bind_eq_some_iff.1 h
    obtain ⟨w₆, h₆, h⟩ := Option.bind_eq_some_iff.1 h
    have hw₄ : IsLetters w₄ := (hw₂.finalY.unpairSuffix h₃).shortenSuffix h₄
    exact ((hw₄.dropSuffix h₅).dropFinalE h₆).singleFinalL h

/-- What a length in 32 bits reaches of a word of letters is a word of letters. -/
theorem IsLetters.reached (hw : IsLetters w) : IsLetters (reached w) :=
  fun b hb ↦ hw b ((reached_isPrefix w).subset hb)

/-- **The stem of a word of letters is made of letters.** -/
theorem IsLetters.stem? {v : Bytes} (hw : IsLetters w) (h : stem? w = some v) : IsLetters v := by
  rw [English.stem?] at h
  split at h
  · exact Option.some.inj h ▸ hw
  · exact hw.reached.reduce h

end Letters

/-- A byte string without a letter other than `a` to `z` is a word of letters. -/
theorem isLetters_of_not (h : ¬ (w.length ≤ 2 ∨ (!w.all isLetter) = true)) : IsLetters w := by
  simpa [IsLetters] using (not_or.1 h).2

/-- Words of letters are well-formed. -/
theorem IsLetters.isValid (hw : IsLetters w) : Utf8.isValid w = true := by
  refine Utf8.isValid_of_ascii fun b hb ↦ ?_
  have hb := hw b hb
  simp only [isLetter, Bool.and_eq_true, decide_eq_true_eq, UInt8.le_iff_toNat_le,
    UInt8.reduceToNat] at hb
  omega

/-- The stem of a well-formed word is well-formed. -/
theorem isValid_stem {w : Bytes} (h : Utf8.isValid w = true) : Utf8.isValid (stem w) = true := by
  rw [stem]
  rcases hv : stem? w with - | v
  · exact h
  · rw [stem?] at hv
    split at hv
    · exact Option.some.inj hv ▸ h
    · rename_i hw
      exact ((isLetters_of_not hw).reached.reduce hv).isValid

end English

namespace Russian

/-- The stem of a well-formed word is well-formed. -/
theorem isValid_stem {w : Bytes} (h : Utf8.isValid w = true) : Utf8.isValid (stem w) = true := by
  rw [stem]
  split
  · exact h
  · exact Utf8.isValid_encode _

end Russian

/-- **A stem of a well-formed word is well-formed, whatever the language.** -/
theorem Stemmer.isValid_stem (s : Stemmer) {w : Bytes} (h : Utf8.isValid w = true) :
    Utf8.isValid (s.stem w) = true := by
  cases s with
  | english => exact English.isValid_stem h
  | russian => exact Russian.isValid_stem h

end Concordance
