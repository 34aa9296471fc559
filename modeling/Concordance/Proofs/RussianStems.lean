import Concordance.Proofs.StemLengths

/-!
# What a Russian stem keeps, and what it does not tell apart

The regions of a word stand in order and begin behind its first vowel (`Russian.rv_le_r1`,
`Russian.r1_le_r2`, `Russian.r2_le_length`), and no ending is taken off that does not lie in one of
them. The lengths that decide this are natural numbers, where a difference that would be negative is
zero. So the steps are written a second time with guards: each difference and each look-up is asked
for, and if one of them is not there, there is no result (`Russian.stemChars?`). There always is
one, and it is the stem (`Russian.stemChars?_eq`), because an ending that a word has is not longer
than the word, and one that follows a letter does not stand at its beginning.

A stem says `е` where its word may say `ё`. Words that differ in these two letters only have the
same stem, but for the few words that are too short to be looked at (`Russian.stem_eq_stem_iff`).
-/

namespace Concordance.Russian

variable {w : List Char}

/-! ### Regions -/

theorem afterClosed_le_length (w : List Char) : afterClosed w ≤ w.length := by
  match w with
  | [] => exact Nat.le_refl 0
  | [c] => exact Nat.le_refl 1
  | a :: b :: w =>
    have ih := afterClosed_le_length (b :: w)
    rw [afterClosed]
    simp only [List.length_cons] at ih ⊢
    split <;> omega

/-- **The regions of a word begin in order**, the first one not before the others. -/
theorem rv_le_r1 (w : List Char) : (regions w).rv ≤ (regions w).r1 :=
  afterVowel_le_afterClosed w

/-- The second region lies in the first. -/
theorem r1_le_r2 (w : List Char) : (regions w).r1 ≤ (regions w).r2 :=
  Nat.le_add_right ..

/-- It lies in the word. -/
theorem r2_le_length (w : List Char) : (regions w).r2 ≤ w.length := by
  have hr1 : afterClosed w ≤ w.length := afterClosed_le_length w
  have hrest : afterClosed (w.drop (afterClosed w)) ≤ (w.drop (afterClosed w)).length :=
    afterClosed_le_length _
  rw [List.length_drop] at hrest
  show afterClosed w + afterClosed (w.drop (afterClosed w)) ≤ w.length
  omega

/-- A word without vowels has empty regions. -/
theorem regions_of_no_vowel (h : ∀ c ∈ w, isVowel c = false) :
    regions w = ⟨w.length, w.length, w.length⟩ := by
  have hvowel : w.length ≤ afterVowel w := by
    induction w with
    | nil => exact Nat.le_refl 0
    | cons c w ih =>
      obtain ⟨hc, hw⟩ := List.forall_mem_cons.1 h
      rw [afterVowel, if_neg (Bool.eq_false_iff.1 hc), List.length_cons, Nat.add_comm]
      exact Nat.add_le_add_left (ih hw) 1
  have hclosed : afterClosed w = w.length :=
    Nat.le_antisymm (afterClosed_le_length w) (Nat.le_trans hvowel (afterVowel_le_afterClosed w))
  rw [regions, Nat.le_antisymm (afterVowel_le_length w) hvowel, hclosed, List.drop_length]
  rfl

/-- The first region begins right behind the first vowel. -/
theorem rv_of_first_vowel {before after : List Char} {v : Char}
    (hbefore : ∀ c ∈ before, isVowel c = false) (hv : isVowel v = true) :
    (regions (before ++ v :: after)).rv = before.length + 1 := by
  show afterVowel (before ++ v :: after) = _
  induction before with
  | nil => exact if_pos hv
  | cons c before ih =>
    obtain ⟨hc, hbefore⟩ := List.forall_mem_cons.1 hbefore
    rw [List.cons_append, afterVowel, if_neg (Bool.eq_false_iff.1 hc), ih hbefore, Nat.add_comm]
    rfl

/-! ### Guarded steps -/

/-- What is left of a number after another is taken from it, if it is large enough. -/
def difference? (m n : Nat) : Option Nat :=
  if n ≤ m then some (m - n) else none

/-- A difference that is not negative is there. -/
theorem difference?_of_le {m n : Nat} (h : n ≤ m) : difference? m n = some (m - n) :=
  if_pos h

/-- Whether a word has an ending that begins in the region from `start` on, with guards. -/
def hasEnding? (start : Nat) (afterA : Bool) (w ending : List Char) : Option Bool :=
  if w.length < ending.length then some false
  else do
    let cut ← difference? w.length ending.length
    if w.drop cut ≠ ending ∨ cut < start then return false
    else if !afterA then return true
    else if cut = 0 then return false
    else
      let before ← difference? cut 1
      if before < start then return false
      else
        let c ← w[before]?
        return c == 'а' || c == 'я'

/-- The length of the longest ending of the table that a word has, with guards. -/
def longest? (table : Endings) (start : Nat) (afterA : Bool) (w : List Char) : Option Nat :=
  table.foldlM (fun best ending ↦
    if ending.length ≤ best then some best
    else do return if ← hasEnding? start afterA w ending then ending.length else best) 0

/-- The word without its last `n` characters, if it has so many. -/
def chop? (w : List Char) (n : Nat) : Option (List Char) := do
  return w.take (← difference? w.length n)

/-- The longest ending of either table, with guards. -/
def longestOfTwo? (free afterA : Endings) (start : Nat) (w : List Char) : Option Nat := do
  return max (← longest? free start false w) (← longest? afterA start true w)

/-- One character goes if the word has the ending, with guards. -/
def dropOne? (start : Nat) (ending w : List Char) : Option (List Char) := do
  if ← hasEnding? start false w ending then chop? w 1 else return w

/-- Inflection, with guards. -/
def inflection? (r : Regions) (w : List Char) : Option (List Char) := do
  let g ← longestOfTwo? gerund gerundAfterA r.rv w
  if 0 < g then chop? w g
  else
    let w ← chop? w (← longest? reflexive r.rv false w)
    let a ← longest? adjective r.rv false w
    if 0 < a then
      let w ← chop? w a
      chop? w (← longestOfTwo? participle participleAfterA r.rv w)
    else
      let v ← longestOfTwo? verb verbAfterA r.rv w
      if 0 < v then chop? w v else chop? w (← longest? noun r.rv false w)

/-- The derivational ending goes, with guards. -/
def derivation? (r : Regions) (w : List Char) : Option (List Char) := do
  chop? w (← longest? derivational r.r2 false w)

/-- A doubled `н`, a superlative ending, or a soft sign, with guards. -/
def tidy? (r : Regions) (w : List Char) : Option (List Char) := do
  if ← hasEnding? r.rv false w "нн".toList then chop? w 1
  else
    let s ← longest? superlative r.rv false w
    if 0 < s then dropOne? r.rv "нн".toList (← chop? w s)
    else dropOne? r.rv "ь".toList w

/-- The stem of the characters of a word, with guards. -/
def stemChars? (w : List Char) : Option (List Char) :=
  let w := w.map foldYo
  let r := regions w
  if w.length ≤ r.rv then some w
  else do
    let w ← inflection? r w
    let w ← dropOne? r.rv "и".toList w
    let w ← derivation? r w
    tidy? r w

/-! ### No guard is needed -/

/-- An ending is looked for where it would begin. -/
theorem isSuffixOf_eq (ending w : List Char) :
    ending.isSuffixOf w = decide (w.drop (w.length - ending.length) = ending) := by
  rw [Bool.eq_iff_iff, decide_eq_true_eq, List.isSuffixOf_iff_suffix, List.suffix_iff_eq_drop,
    eq_comm]

/-- An ending that a word has is not longer than the word, and if a letter of a region stands before
it, it does not begin the word. -/
theorem hasEnding?_eq (start : Nat) (afterA : Bool) (w ending : List Char) :
    hasEnding? start afterA w ending = some (hasEnding start afterA w ending) := by
  rw [hasEnding?, hasEnding]
  split
  · rename_i hlt
    have hnot : ending.isSuffixOf w = false := by
      rw [← Bool.not_eq_true, List.isSuffixOf_iff_suffix]
      exact fun hsuffix ↦ absurd hsuffix.length_le (Nat.not_le.2 hlt)
    rw [hnot]
    rfl
  rename_i hle
  rw [difference?_of_le (Nat.not_lt.1 hle), isSuffixOf_eq]
  show (if _ then some false else _) = _
  split
  · rename_i hnot
    rcases hnot with hnot | hlt
    · rw [decide_eq_false hnot]
      rfl
    · rw [decide_eq_false (Nat.not_le.2 hlt), Bool.and_false]
      rfl
  rename_i hends
  obtain ⟨hends, hstart⟩ := not_or.1 hends
  rw [decide_eq_true (not_not.1 hends), decide_eq_true (Nat.not_lt.1 hstart), Bool.true_and,
    Bool.true_and]
  cases afterA with
  | false => rfl
  | true =>
    show (if w.length - ending.length = 0 then some false else _) = some (_ && _)
    split
    · rename_i hzero
      rw [hzero, decide_eq_false (Nat.not_lt_zero start)]
      rfl
    rename_i hpos
    rw [difference?_of_le (Nat.one_le_iff_ne_zero.2 hpos)]
    show (if _ then some false else _) = _
    split
    · rename_i hlt
      rw [decide_eq_false (by omega)]
      rfl
    · rename_i hbefore
      have hlt : w.length - ending.length - 1 < w.length := by omega
      rw [List.getElem?_eq_getElem hlt, decide_eq_true (by omega)]
      rfl

/-- **No subtraction underflows** where the longest ending of a table is looked for. -/
theorem longest?_eq (table : Endings) (start : Nat) (afterA : Bool) (w : List Char) :
    longest? table start afterA w = some (longest table start afterA w) := by
  have hstep : ∀ best (ending : List Char),
      (if ending.length ≤ best then some best
        else do return if ← hasEnding? start afterA w ending then ending.length else best) =
      some (if best < ending.length && hasEnding start afterA w ending then ending.length
        else best) := by
    intro best ending
    rw [hasEnding?_eq]
    split
    · rename_i hle
      rw [decide_eq_false (Nat.not_lt.2 hle)]
      rfl
    · rename_i hlt
      rw [decide_eq_true (Nat.not_le.1 hlt), Bool.true_and]
      rfl
  rw [longest?, longest]
  simp only [hstep]
  exact List.foldlM_pure

theorem longestOfTwo?_eq (free afterA : Endings) (start : Nat) (w : List Char) :
    longestOfTwo? free afterA start w = some (longestOfTwo free afterA start w) := by
  rw [longestOfTwo?, longest?_eq, longest?_eq]
  rfl

/-- So many characters as lie in a region may go. -/
theorem chop?_of_fits {start n : Nat} (h : Fits start w n) : chop? w n = some (chop w n) := by
  have hle : n ≤ w.length := by
    rw [Fits] at h
    omega
  rw [chop?, difference?_of_le hle]
  rfl

/-- Of an ending that a word has, one character may go. -/
theorem chop?_one {start : Nat} {ending : List Char} (hne : ending ≠ [])
    (h : hasEnding start false w ending = true) : chop? w 1 = some (chop w 1) := by
  have hpos := List.length_pos_iff.2 hne
  have hfits := fits_of_hasEnding h
  rw [Fits] at hfits
  have hone : Fits start w 1 := .inr (by omega)
  exact chop?_of_fits hone

/-- None does where one letter goes. -/
theorem dropOne?_eq (start : Nat) {ending : List Char} (hne : ending ≠ []) (w : List Char) :
    dropOne? start ending w = some (if hasEnding start false w ending then chop w 1 else w) := by
  rw [dropOne?, hasEnding?_eq]
  show (if _ then _ else some w) = _
  split
  · rename_i h
    exact chop?_one hne h
  · rfl

/-- So none does in the first step. -/
theorem inflection?_eq (r : Regions) (w : List Char) : inflection? r w = some (inflection r w) := by
  simp only [inflection?, inflection, longestOfTwo?_eq, longest?_eq, Option.bind_eq_bind,
    Option.bind_some, chop?_of_fits (fits_longest ..)]
  split
  · exact chop?_of_fits (fits_longestOfTwo ..)
  split
  · exact chop?_of_fits (fits_longestOfTwo ..)
  split
  · exact chop?_of_fits (fits_longestOfTwo ..)
  · rfl

theorem derivation?_eq (r : Regions) (w : List Char) : derivation? r w = some (derivation r w) := by
  rw [derivation?, longest?_eq]
  exact chop?_of_fits (fits_longest ..)

theorem tidy?_eq (r : Regions) (w : List Char) : tidy? r w = some (tidy r w) := by
  have hnn : "нн".toList ≠ [] := by decide
  have hsoft : "ь".toList ≠ [] := by decide
  simp only [tidy?, tidy, singleN, hasEnding?_eq, longest?_eq, Option.bind_eq_bind,
    Option.bind_some, chop?_of_fits (fits_longest ..), dropOne?_eq _ hnn, dropOne?_eq _ hsoft]
  split
  · rename_i h
    exact chop?_one hnn h
  · split <;> rfl

/-- **No guard is needed**: the guarded steps always have a result, and it is the stem. -/
theorem stemChars?_eq (w : List Char) : stemChars? w = some (stemChars w) := by
  have hi : "и".toList ≠ [] := by decide
  simp only [stemChars?, stemChars, finalI, inflection?_eq, derivation?_eq, tidy?_eq,
    dropOne?_eq _ hi, Option.bind_eq_bind, Option.bind_some]
  split <;> rfl

/-! ### What a stem keeps -/

/-- A word whose vowels are counted with `ё` written `е` has no `ё` if it has no vowel. -/
theorem map_foldYo_of_no_vowel (h : ∀ c ∈ w.map foldYo, isVowel c = false) : w.map foldYo = w := by
  refine (List.map_congr_left fun c hc ↦ ?_).trans (List.map_id w)
  have hvowel : isVowel (foldYo c) = false := h _ (List.mem_map_of_mem hc)
  rw [foldYo] at hvowel ⊢
  split
  · rename_i hyo
    rw [if_pos hyo] at hvowel
    exact absurd hvowel (by decide)
  · exact (id_eq c).symm

/-- The beginning of a word up to its first vowel is a beginning of its stem. -/
theorem root_isPrefix {before after : List Char} {v : Char}
    (heq : w.map foldYo = before ++ v :: after) (hbefore : ∀ c ∈ before, isVowel c = false)
    (hv : isVowel v = true) : before ++ [v] <+: stemChars w := by
  obtain ⟨hbegins, hkeeps⟩ := stemChars_keeps w
  rw [heq, rv_of_first_vowel hbefore hv] at hkeeps
  have hroot : before ++ [v] <+: w.map foldYo := ⟨after, by rw [heq, List.append_assoc]; rfl⟩
  refine List.prefix_of_prefix_length_le hroot hbegins ?_
  rw [List.length_append]
  exact hkeeps

/-- The letters of a word: its characters, with `е` for `ё`. -/
def letters (w : Bytes) : List Char :=
  (Utf8.decodeLossy w).map foldYo

/-- What it is for the stem of a word to keep its root. -/
structure KeepsRoot (w : Bytes) : Prop where
  /-- If there is a vowel, the regions begin in order, the first of them behind some letter and none
  behind the end. -/
  ordered : (∃ c ∈ letters w, isVowel c = true) → 1 ≤ (regions (letters w)).rv ∧
    (regions (letters w)).rv ≤ (regions (letters w)).r1 ∧
      (regions (letters w)).r1 ≤ (regions (letters w)).r2 ∧
        (regions (letters w)).r2 ≤ (letters w).length
  /-- If there is none, they are empty, and the word is its own stem. -/
  whole : (∀ c ∈ letters w, isVowel c = false) →
    regions (letters w) = ⟨(letters w).length, (letters w).length, (letters w).length⟩ ∧ stem w = w
  /-- The guarded steps have a result. It is the stem, a beginning of the letters that reaches at
  least to where the first region begins; so it is not empty, and it has all letters up to the first
  vowel. -/
  cut : ∃ s, stemChars? (Utf8.decodeLossy w) = some s ∧ stem w = encode s ∧ s <+: letters w ∧
    (regions (letters w)).rv ≤ s.length ∧ s ≠ [] ∧
      ∀ before v after, letters w = before ++ v :: after → (∀ c ∈ before, isVowel c = false) →
        isVowel v = true → before ++ [v] <+: s

section Word

variable {w : Bytes}

/-- Of a word whose length is a word of 32 bits all is read. -/
theorem stem_of_lt (hlong : 4 ≤ w.length) (hshort : w.length < 2 ^ 31) :
    stem w = encode (stemChars (Utf8.decodeLossy w)) := by
  rw [stem, if_neg (Nat.not_lt.2 hlong), reached_of_lt hshort]

theorem keepsRoot (hvalid : Utf8.isValid w = true) (hlong : 4 ≤ w.length)
    (hshort : w.length < 2 ^ 31) : KeepsRoot w := by
  have hstem := stem_of_lt hlong hshort
  have hne : Utf8.decodeLossy w ≠ [] := by
    intro hnil
    have hword := Utf8.encode_decodeLossy hvalid
    rw [hnil] at hword
    rw [← hword] at hlong
    exact absurd hlong (by decide)
  obtain ⟨hbegins, hkeeps⟩ := stemChars_keeps (Utf8.decodeLossy w)
  refine ⟨fun ⟨c, hc, _⟩ ↦ ⟨afterVowel_pos (List.ne_nil_of_mem hc), rv_le_r1 _, r1_le_r2 _,
    r2_le_length _⟩, fun hnone ↦ ⟨regions_of_no_vowel hnone, ?_⟩, _, stemChars?_eq _, hstem,
    hbegins, hkeeps, stemChars_ne_nil hne, fun _ _ _ ↦ root_isPrefix⟩
  -- without a vowel the first region is empty, and nothing is taken off
  have hrv : (letters w).length ≤ (regions (letters w)).rv :=
    Nat.le_of_eq (congrArg Regions.rv (regions_of_no_vowel hnone)).symm
  have hall : stemChars (Utf8.decodeLossy w) = letters w := if_pos hrv
  have hletters : letters w = Utf8.decodeLossy w := map_foldYo_of_no_vowel hnone
  rw [hstem, hall, hletters, Utf8.encode_decodeLossy hvalid]

/-- Nothing is read of a word whose length in 32 bits is negative, and its stem is empty. -/
theorem not_keepsRoot (hlength : w.length = 2 ^ 31) : ¬ KeepsRoot w := by
  intro h
  obtain ⟨s, -, hstem, -, -, hne, -⟩ := h.cut
  have hnil : stem w = [] := by
    rw [stem, if_neg (by omega), reached_of_length_eq hlength]
    rfl
  exact Utf8.encode_ne_nil hne (hstem.symm.trans hnil)

end Word

/-- **A stem is cut at the end only, and never into the root**, if the word is well-formed, has at
least four bytes, and is not too long for its length to be a word of 32 bits. -/
theorem keepsRoot_iff (n : Nat) : (∀ w, Utf8.isValid w = true → 4 ≤ w.length → w.length ≤ n →
    KeepsRoot w) ↔ n < 2 ^ 31 := by
  constructor
  · intro h
    by_contra hn
    obtain ⟨w, hlength, hascii⟩ :
        ∃ w : Bytes, w.length = 2 ^ 31 ∧ ∀ b ∈ w, b.toNat < 0x80 :=
      ⟨List.replicate _ 97, List.length_replicate, fun b hb ↦ by
        rw [List.eq_of_mem_replicate hb]
        decide⟩
    exact not_keepsRoot hlength
      (h w (Utf8.isValid_of_ascii hascii) (by omega) (by omega))
  · intro hn w hvalid hlong hle
    exact keepsRoot hvalid hlong (by omega)

/-- A superlative, from which three endings go one after another. -/
example : stem (utf8 "длиннейший") = utf8 "длин" ∧ stem (utf8 "вздр") = utf8 "вздр" := by
  decide +kernel

/-! ### `ё` and `е` -/

/-- Characters that are the same letter if `ё` and `е` are not told apart. -/
def SameLetter (c d : Char) : Prop :=
  c = d ∨ c = 'ё' ∧ d = 'е' ∨ c = 'е' ∧ d = 'ё'

/-- Letters that differ only in `ё` and `е` are folded to the same. -/
theorem foldYo_eq_of_sameLetter {c d : Char} (h : SameLetter c d) : foldYo c = foldYo d := by
  obtain rfl | ⟨rfl, rfl⟩ | ⟨rfl, rfl⟩ := h
  · rfl
  · decide
  · decide

/-- The two letters have equally many bytes. -/
theorem length_utf8EncodeChar_of_sameLetter {c d : Char} (h : SameLetter c d) :
    (String.utf8EncodeChar c).length = (String.utf8EncodeChar d).length := by
  obtain rfl | ⟨rfl, rfl⟩ | ⟨rfl, rfl⟩ := h
  · rfl
  · decide
  · decide

theorem sameLetters_refl (cs : List Char) : List.Forall₂ SameLetter cs cs :=
  List.forall₂_same.2 fun _ _ ↦ .inl rfl

/-- A part of one of the two letters is as ill-formed as a part of the other. -/
theorem sameLetters_part {c d : Char} (h : SameLetter c d) {n : Nat}
    (hn : n < (String.utf8EncodeChar c).length) : List.Forall₂ SameLetter
      (Utf8.decodeLossy ((String.utf8EncodeChar c).take n))
      (Utf8.decodeLossy ((String.utf8EncodeChar d).take n)) := by
  have htwo : n < 2 → Utf8.decodeLossy ((String.utf8EncodeChar 'ё').take n) =
      Utf8.decodeLossy ((String.utf8EncodeChar 'е').take n) := by
    intro hn
    obtain rfl | rfl : n = 0 ∨ n = 1 := by omega
    · rfl
    · decide
  obtain rfl | ⟨rfl, rfl⟩ | ⟨rfl, rfl⟩ := h
  · exact sameLetters_refl _
  · exact htwo hn ▸ sameLetters_refl _
  · exact htwo hn ▸ sameLetters_refl _

section SameLetters

variable {cs ds : List Char} (h : List.Forall₂ SameLetter cs ds)

include h

/-- So words of the same letters have the same stem. -/
theorem stemChars_eq_of_sameLetters : stemChars cs = stemChars ds := by
  have hfold : cs.map foldYo = ds.map foldYo := by
    induction h with
    | nil => rfl
    | cons hletter _ ih => rw [List.map_cons, List.map_cons, ih, foldYo_eq_of_sameLetter hletter]
  rw [stemChars, stemChars, hfold]

/-- They have as many bytes. -/
theorem length_encode_of_sameLetters : (encode cs).length = (encode ds).length := by
  induction h with
  | nil => rfl
  | cons hletter _ ih =>
    rw [encode, encode] at ih ⊢
    rw [List.flatMap_cons, List.flatMap_cons, List.length_append, List.length_append, ih,
      length_utf8EncodeChar_of_sameLetter hletter]

/-- Cut off at the same place, the words still have the same letters. -/
theorem sameLetters_take (n : Nat) : List.Forall₂ SameLetter
    (Utf8.decodeLossy ((encode cs).take n)) (Utf8.decodeLossy ((encode ds).take n)) := by
  induction h generalizing n with
  | nil => exact sameLetters_refl _
  | @cons c d cs ds hletter _ ih =>
    have hlength := length_utf8EncodeChar_of_sameLetter hletter
    rw [encode, encode, List.flatMap_cons, List.flatMap_cons, List.take_append, List.take_append]
    rcases Nat.lt_or_ge n (String.utf8EncodeChar c).length with hlt | hge
    · rw [← hlength, Nat.sub_eq_zero_of_le (Nat.le_of_lt hlt), List.take_zero, List.take_zero,
        List.append_nil, List.append_nil]
      exact sameLetters_part hletter hlt
    · have hc : (String.utf8EncodeChar c).take n = String.utf8EncodeChar c :=
        List.take_of_length_le hge
      have hd : (String.utf8EncodeChar d).take n = String.utf8EncodeChar d :=
        List.take_of_length_le (hlength ▸ hge)
      rw [hc, hd, Utf8.decodeLossy_utf8EncodeChar, Utf8.decodeLossy_utf8EncodeChar, ← hlength]
      exact .cons hletter (ih _)

end SameLetters

/-- **Words that differ only in `ё` and `е` have the same stem exactly if they are the same or have
at least four bytes.** Shorter words, the single letter and the letter with one that has one byte,
are their own stems and so are told apart. -/
theorem stem_eq_stem_iff {v w : Bytes} (hv : Utf8.isValid v = true) (hw : Utf8.isValid w = true)
    (h : List.Forall₂ SameLetter (Utf8.decodeLossy v) (Utf8.decodeLossy w)) :
    stem v = stem w ↔ v = w ∨ 4 ≤ v.length := by
  have hlength : v.length = w.length := by
    rw [← Utf8.encode_decodeLossy hv, ← Utf8.encode_decodeLossy hw]
    exact length_encode_of_sameLetters h
  have hreached : stemChars (Utf8.decodeLossy (reached v)) =
      stemChars (Utf8.decodeLossy (reached w)) := by
    have htake := sameLetters_take h (length32 w).toInt.toNat
    rw [Utf8.encode_decodeLossy hv, Utf8.encode_decodeLossy hw] at htake
    rw [reached, reached, length32, hlength]
    exact stemChars_eq_of_sameLetters htake
  rw [stem, stem, ← hlength, hreached]
  split
  · rename_i hshort
    exact (or_iff_left (Nat.not_le.2 hshort)).symm
  · rename_i hlong
    exact iff_of_true rfl (.inr (Nat.not_lt.1 hlong))

/-- The words for a fir have one stem; the letters by themselves do not. -/
theorem stem_eq_stem_iff_alone :
    let v := utf8 "ё"
    let w := utf8 "е"
    (Utf8.isValid v = true ∧ Utf8.isValid w = true ∧
        List.Forall₂ SameLetter (Utf8.decodeLossy v) (Utf8.decodeLossy w) ∧ stem v ≠ stem w) ∧
      stem (utf8 "ёлка") = stem (utf8 "елка") := by
  intro v w
  have hdecode : ∀ cs : List Char, Utf8.decodeLossy (encode cs) = cs := Utf8.decodeLossy_encode
  have hyo : SameLetter 'ё' 'е' := .inr (.inl ⟨rfl, rfl⟩)
  have hsame : ∀ cs : List Char, List.Forall₂ SameLetter (Utf8.decodeLossy (encode ('ё' :: cs)))
      (Utf8.decodeLossy (encode ('е' :: cs))) := by
    intro cs
    rw [hdecode, hdecode]
    exact .cons hyo (sameLetters_refl cs)
  have hvalid : ∀ cs : List Char, Utf8.isValid (encode cs) = true := Utf8.isValid_encode
  refine ⟨⟨hvalid _, hvalid _, hsame [], fun heq ↦ ?_⟩, ?_⟩
  · have hor := (stem_eq_stem_iff (hvalid _) (hvalid _) (hsame [])).1 heq
    exact absurd hor (by decide)
  · exact (stem_eq_stem_iff (hvalid _) (hvalid _) (hsame "лка".toList)).2 (.inr (by decide))

end Concordance.Russian
