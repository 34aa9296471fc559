import Mathlib.Data.List.Basic
import Concordance.Proofs.StemLengths

/-!
# Vowels and consonants by their places

What an English word is made of, told place by place: which of its letters are consonants
(`isConsonantAt`), how many of them stand behind a vowel (`runs`), whether it has a vowel, ends in
a doubled consonant or ends short. None of this reads a letter behind the place that it is asked
about, so a beginning of a word has the consonants that the word has there.

The stemmer reads a word from the front instead. It carries along what a `y` would be, skips
consonants and vowels in turns and counts the turns. Both tell the same (`measure_eq_runs`,
`hasVowel_iff`, `endsDoubled_iff`, `endsShort_iff`).
-/

namespace Concordance.English

/-- Whether the letter at a place is a consonant. All letters but `a`, `e`, `i`, `o`, `u` and `y`
are; `y` is one at the start and after a vowel. -/
def isConsonantAt (w : Bytes) : Nat → Bool
  | 0 => !isVowelLetter (w.getD 0 0)
  | i + 1 => !isVowelLetter (w.getD (i + 1) 0) &&
      (w.getD (i + 1) 0 != 121 || !isConsonantAt w i)

/-- At how many places of a word a consonant stands behind a vowel. -/
def runs (w : Bytes) : Nat :=
  (List.range w.length).countP fun i ↦ 0 < i && !isConsonantAt w (i - 1) && isConsonantAt w i

/-- Some letter of a word is a vowel. -/
def HasVowel (w : Bytes) : Prop :=
  ∃ i < w.length, isConsonantAt w i = false

/-- A word ends in the same letter twice, and the last of them is a consonant. -/
def EndsDoubled (w : Bytes) : Prop :=
  ∃ stem b, w = stem ++ [b, b] ∧ isConsonantAt w (stem.length + 1) = true

/-- A word ends in consonant, vowel, consonant, the last of them not `w`, `x` or `y`. -/
def EndsShort (w : Bytes) : Prop :=
  ∃ stem a b c, w = stem ++ [a, b, c] ∧ isConsonantAt w stem.length = true ∧
    isConsonantAt w (stem.length + 1) = false ∧ isConsonantAt w (stem.length + 2) = true ∧
    c ∉ utf8 "wxy"

/-! ### The consonants of a word -/

/-- What a letter is does not depend on what follows it. -/
theorem isConsonantAt_append (w v : Bytes) {i : Nat} (h : i < w.length) :
    isConsonantAt (w ++ v) i = isConsonantAt w i := by
  have hletter : ∀ {j}, j < w.length → (w ++ v).getD j 0 = w.getD j 0 := by
    intro j hj
    rw [List.getD_eq_getElem?_getD, List.getElem?_append_left hj, List.getD_eq_getElem?_getD]
  induction i with
  | zero => rw [isConsonantAt, isConsonantAt, hletter h]
  | succ i ih => rw [isConsonantAt, isConsonantAt, hletter h, ih (Nat.lt_of_succ_lt h)]

/-- The letters of a beginning are what they are in the word. -/
theorem isConsonantAt_take {w : Bytes} {i n : Nat} (hi : i < n) (hn : n ≤ w.length) :
    isConsonantAt (w.take n) i = isConsonantAt w i := by
  have happend := isConsonantAt_append (w.take n) (w.drop n) (i := i)
    (by rw [List.length_take]; omega)
  rw [List.take_append_drop] at happend
  exact happend.symm

/-- A vowel letter is no consonant wherever it stands. -/
theorem isConsonantAt_of_vowelLetter {w : Bytes} {i : Nat}
    (h : isVowelLetter (w.getD i 0) = true) : isConsonantAt w i = false := by
  cases i <;> rw [isConsonantAt, h] <;> rfl

/-- Only of `y` it depends on its place what it is. -/
theorem isConsonantAt_of_ne {w : Bytes} {i : Nat} (h : isVowelLetter (w.getD i 0) = false)
    (hy : w.getD i 0 ≠ 121) : isConsonantAt w i = true := by
  cases i with
  | zero => rw [isConsonantAt, h]; rfl
  | succ i => rw [isConsonantAt, h, bne_iff_ne.2 hy]; rfl

/-- A letter is a consonant if it is none of `a`, `e`, `i`, `o`, `u` and, in the case of `y`, stands
at the front or behind a vowel. -/
theorem isConsonantAt_iff {w : Bytes} {i : Nat} {b : UInt8} (hb : w[i]? = some b) :
    isConsonantAt w i = true ↔ b ∉ utf8 "aeiou" ∧
      (b = 121 → i = 0 ∨ isConsonantAt w (i - 1) = false) := by
  have hvowel : isVowelLetter b = false ↔ b ∉ utf8 "aeiou" := by
    have hbytes : utf8 "aeiou" = [97, 101, 105, 111, 117] := rfl
    simp [isVowelLetter, hbytes, and_assoc]
  rw [← hvowel]
  cases i with
  | zero => simp [isConsonantAt, hb]
  | succ i => simp [isConsonantAt, hb, imp_iff_not_or]

@[simp]
theorem length_consonantsFrom (y : Bool) (w : Bytes) : (consonantsFrom y w).length = w.length := by
  induction w generalizing y with
  | nil => rfl
  | cons b w ih => rw [consonantsFrom, List.length_cons, List.length_cons, ih]

/-- There is a flag for each letter. -/
@[simp]
theorem length_consonants (w : Bytes) : (consonants w).length = w.length :=
  length_consonantsFrom true w

/-- The kind of a letter in terms of what a `y` would be in its place. -/
theorem consonant_eq (b : UInt8) (y : Bool) :
    (if isVowelLetter b then false else if b = 121 then y else true) =
      (!isVowelLetter b && (b != 121 || y)) := by
  cases isVowelLetter b <;> by_cases h : b = 121 <;> simp [h]

/-- Behind the first letter, what a `y` would be is told by the letter before it. -/
theorem getElem?_consonantsFrom_succ (y : Bool) (w : Bytes) {i : Nat} (h : i + 1 < w.length)
    {c : Bool} (hc : (consonantsFrom y w)[i]? = some c) :
    (consonantsFrom y w)[i + 1]? =
      some (!isVowelLetter (w.getD (i + 1) 0) && (w.getD (i + 1) 0 != 121 || !c)) := by
  induction w generalizing y i with
  | nil => exact absurd h (Nat.not_lt_zero _)
  | cons b w ih =>
    rw [consonantsFrom, List.getElem?_cons_succ, List.getD_cons_succ]
    have h : i < w.length := Nat.lt_of_succ_lt_succ h
    cases i with
    | zero =>
      obtain ⟨d, w, rfl⟩ := List.exists_cons_of_length_pos h
      have hc := Option.some.inj hc
      rw [consonantsFrom, List.getElem?_cons_zero, List.getD_cons_zero, hc, ← consonant_eq]
    | succ i => exact ih _ h hc

/-- The stemmer's list of consonants, place by place. -/
theorem getElem?_consonants {w : Bytes} {i : Nat} (h : i < w.length) :
    (consonants w)[i]? = some (isConsonantAt w i) := by
  induction i with
  | zero =>
    obtain ⟨b, w, rfl⟩ := List.exists_cons_of_length_pos h
    rw [consonants, consonantsFrom, List.getElem?_cons_zero, consonant_eq, isConsonantAt,
      List.getD_cons_zero, Bool.or_true, Bool.and_true]
  | succ i ih => exact getElem?_consonantsFrom_succ true w h (ih (Nat.lt_of_succ_lt h))

/-- **The flags of a word** say of each place whether a consonant stands there. -/
theorem consonants_eq_map (w : Bytes) :
    consonants w = (List.range w.length).map (isConsonantAt w) := by
  refine List.ext_getElem? fun i ↦ ?_
  rcases Nat.lt_or_ge i w.length with h | h
  · rw [getElem?_consonants h, List.getElem?_map, List.getElem?_range h, Option.map_some]
  · rw [List.getElem?_eq_none (by simpa using h), List.getElem?_eq_none (by simpa using h)]

/-! ### The measure -/

/-- How often `false` is followed by `true` in a list. -/
def rises : List Bool → Nat
  | [] => 0
  | a :: flags => (if a = false ∧ flags.head? = some true then 1 else 0) + rises flags

theorem rises_true_cons (flags : List Bool) : rises (true :: flags) = rises flags := by
  rw [rises, if_neg (by simp), Nat.zero_add]

/-- What a list of flags begins with does not matter as long as it is `true`. -/
theorem rises_dropWhile (flags : List Bool) : rises (flags.dropWhile id) = rises flags := by
  induction flags with
  | nil => rfl
  | cons a flags ih =>
    cases a with
    | false => rfl
    | true => rw [List.dropWhile_cons_of_pos rfl, ih, rises_true_cons]

/-- Behind the first `true` after some `false` there is one rise less. -/
theorem rises_of_dropWhile_not {flags : List Bool} (h : flags.head? ≠ some true) :
    rises flags = match flags.dropWhile (!·) with
      | [] => 0
      | _ :: rest => 1 + rises rest := by
  induction flags with
  | nil => rfl
  | cons a flags ih =>
    cases a with
    | true => exact absurd rfl h
    | false =>
      rw [List.dropWhile_cons_of_pos rfl, rises]
      match flags with
      | [] => rfl
      | true :: rest => rw [if_pos ⟨rfl, rfl⟩, rises_true_cons]; rfl
      | false :: rest => rw [if_neg (by simp), Nat.zero_add, ih (by simp)]

theorem head?_dropWhile_ne (flags : List Bool) : (flags.dropWhile id).head? ≠ some true := by
  intro h
  have hnot := List.head?_dropWhile_not id flags
  rw [h] at hnot
  cases hnot

/-- **Skipping vowels and consonants in turns counts the rises**: each turn ends behind one. -/
theorem countRuns_eq_rises {flags : List Bool} (h : flags.head? ≠ some true) :
    countRuns flags = rises flags := by
  induction flags using countRuns.induct with
  | case1 flags hnil =>
    rw [countRuns, rises_of_dropWhile_not h]
    split
    · rw [hnil]
    · rename_i hcons
      rw [hnil] at hcons
      cases hcons
  | case2 flags a rest hcons ih =>
    rw [countRuns, rises_of_dropWhile_not h]
    split
    · rename_i hnil
      rw [hcons] at hnil
      cases hnil
    · rename_i heq
      rw [heq]
      rw [hcons] at heq
      obtain ⟨-, rfl⟩ := List.cons.inj heq
      rw [ih (head?_dropWhile_ne rest), rises_dropWhile]

/-- A last flag adds a rise if it is `true` behind `false`. -/
theorem rises_concat (flags : List Bool) (b : Bool) :
    rises (flags ++ [b]) =
      rises flags + if flags.getLast? = some false ∧ b = true then 1 else 0 := by
  induction flags with
  | nil => simp [rises]
  | cons a flags ih =>
    rw [List.cons_append, rises, rises, ih, ← Nat.add_assoc]
    match flags with
    | [] => cases a <;> cases b <;> rfl
    | c :: flags => rw [List.cons_append, List.getLast?_cons_cons]; rfl

/-- The rises in the values of a function are the places where it turns to `true`. -/
theorem rises_map_range (f : Nat → Bool) (n : Nat) :
    rises ((List.range n).map f) =
      (List.range n).countP fun i ↦ 0 < i && !f (i - 1) && f i := by
  induction n with
  | zero => rfl
  | succ n ih =>
    rw [List.range_succ, List.map_append, List.map_singleton, rises_concat, ih, List.countP_append,
      List.countP_singleton, List.getLast?_map, List.getLast?_range]
    cases n with
    | zero => rfl
    | succ n => simp

/-- **The measure of a word is the number of places where a consonant stands behind a vowel.** -/
theorem measure_eq_runs (w : Bytes) : measure w = runs w := by
  rw [measure, countRuns_eq_rises (head?_dropWhile_ne _), rises_dropWhile, consonants_eq_map,
    rises_map_range, runs]

/-- The first `y` is a consonant, the second a vowel. -/
example : runs (utf8 "yearly") = 1 := by decide

/-- A last letter that is a vowel adds nothing to the measure. -/
theorem runs_concat_vowel (w : Bytes) {b : UInt8} (hb : isVowelLetter b = true) :
    runs (w ++ [b]) = runs w := by
  have hlast : isConsonantAt (w ++ [b]) w.length = false := by
    have hletter : (w ++ [b]).getD w.length 0 = b := by simp
    exact isConsonantAt_of_vowelLetter (hletter.symm ▸ hb)
  rw [runs, runs, List.length_append, List.length_singleton, List.range_succ, List.countP_append,
    List.countP_singleton, hlast, Bool.and_false, if_neg Bool.false_ne_true, Nat.add_zero]
  refine List.countP_congr fun i hi ↦ ?_
  have hi : i < w.length := List.mem_range.1 hi
  rw [isConsonantAt_append w [b] hi, isConsonantAt_append w [b] (by omega)]

/-! ### The shape of a word -/

/-- The test for a vowel finds one. -/
theorem hasVowel_iff (w : Bytes) : hasVowel w = true ↔ HasVowel w := by
  simp [hasVowel, HasVowel, consonants_eq_map]

/-- The consonants of a word are those of a beginning and those behind it. -/
theorem consonants_append (w v : Bytes) : consonants (w ++ v) = consonants w ++
    (List.range v.length).map fun i ↦ isConsonantAt (w ++ v) (w.length + i) := by
  rw [consonants_eq_map, consonants_eq_map, List.length_append, List.range_add, List.map_append,
    List.map_map]
  congr 1
  exact List.map_congr_left fun i hi ↦ isConsonantAt_append w v (List.mem_range.1 hi)

/-- A word that is long enough is a beginning and so many letters. -/
theorem exists_append_of_le_length {w : Bytes} {n : Nat} (h : n ≤ w.length) :
    ∃ stem ending, w = stem ++ ending ∧ ending.length = n := by
  refine ⟨w.take (w.length - n), w.drop (w.length - n), (List.take_append_drop ..).symm, ?_⟩
  rw [List.length_drop]
  omega

theorem endsDoubled_append (stem : Bytes) (a b : UInt8) : endsDoubled (stem ++ [a, b]) =
    (b == a && isConsonantAt (stem ++ [a, b]) (stem.length + 1)) := by
  rw [endsDoubled, consonants_append]
  simp [List.range_succ]

/-- The test for a doubled consonant finds one. -/
theorem endsDoubled_iff (w : Bytes) : endsDoubled w = true ↔ EndsDoubled w := by
  constructor
  · intro h
    obtain ⟨stem, ending, rfl, hending⟩ := exists_append_of_le_length (two_le_of_endsDoubled h)
    obtain ⟨a, b, rfl⟩ := List.length_eq_two.1 hending
    rw [endsDoubled_append, Bool.and_eq_true, beq_iff_eq] at h
    obtain ⟨rfl, h⟩ := h
    exact ⟨stem, b, rfl, h⟩
  · rintro ⟨stem, b, rfl, h⟩
    rw [endsDoubled_append, h, beq_self_eq_true, Bool.and_self]

theorem endsShort_append (stem : Bytes) (a b c : UInt8) : endsShort (stem ++ [a, b, c]) =
    (isConsonantAt (stem ++ [a, b, c]) stem.length &&
      !isConsonantAt (stem ++ [a, b, c]) (stem.length + 1) &&
      isConsonantAt (stem ++ [a, b, c]) (stem.length + 2) &&
      (c != 119 && c != 120 && c != 121)) := by
  have hplaces : (List.range [a, b, c].length).reverse = [2, 1, 0] := rfl
  rw [endsShort, consonants_append, List.reverse_append, List.reverse_append, ← List.map_reverse,
    hplaces]
  generalize isConsonantAt (stem ++ [a, b, c]) = f
  simp only [List.map_cons, List.map_nil, Nat.add_zero]
  cases f stem.length <;> cases f (stem.length + 1) <;> cases f (stem.length + 2) <;> rfl

/-- So does the test for a consonant, a vowel and a consonant other than `w`, `x` and `y`. -/
theorem endsShort_iff (w : Bytes) : endsShort w = true ↔ EndsShort w := by
  have hwxy : ∀ c : UInt8, (c != 119 && c != 120 && c != 121) = true ↔ c ∉ utf8 "wxy" := by
    intro c
    have hbytes : utf8 "wxy" = [119, 120, 121] := rfl
    simp [hbytes, and_assoc]
  constructor
  · intro h
    have hthree : 3 ≤ w.length := by
      rw [endsShort] at h
      split at h
      · rename_i heq
        rw [← length_consonants, ← List.length_reverse, heq]
        exact Nat.le_add_left 3 _
      · cases h
    obtain ⟨stem, ending, rfl, hending⟩ := exists_append_of_le_length hthree
    obtain ⟨a, b, c, rfl⟩ := List.length_eq_three.1 hending
    rw [endsShort_append, Bool.and_eq_true, Bool.and_eq_true, Bool.and_eq_true, hwxy] at h
    obtain ⟨⟨⟨ha, hb⟩, hc⟩, hc'⟩ := h
    exact ⟨stem, a, b, c, rfl, ha, by simpa using hb, hc, hc'⟩
  · rintro ⟨stem, a, b, c, rfl, ha, hb, hc, hc'⟩
    rw [endsShort_append, ha, hb, hc, (hwxy c).2 hc']
    rfl

end Concordance.English
