import Concordance.Proofs.Measure
import Concordance.Stem.Buffer
import Mathlib.Order.Interval.Finset.Nat

/-!
# The walk that counts the measure

The walk over a buffer counts a turn whenever it comes from a vowel to a consonant. What it keeps in
step is small: before each letter it has counted the turns of the letters already passed, and which
of its two loops it is in tells what the last of them was (`Stands`). So it comes to the end of the
stem with the measure of the stem, whatever stands behind it in the buffer (`measure?_counts`), and
it never asks for a letter that is not there.
-/

namespace Concordance.English.Buffer

variable {w : Bytes} {stop i : Nat}

/-! ### Reading a letter -/

/-- **The consonants of a buffer** are found wherever it has a letter. -/
theorem isConsonant?_eq (h : i < w.length) : isConsonant? w i = some (isConsonantAt w i) := by
  induction i with
  | zero =>
    rw [isConsonant?, isConsonantAt, List.getD_eq_getElem?_getD, List.getElem?_eq_getElem h]
    rfl
  | succ i ih =>
    rw [isConsonant?, isConsonantAt, List.getD_eq_getElem?_getD, List.getElem?_eq_getElem h,
      ih (Nat.lt_of_succ_lt h)]
    generalize w[i + 1] = b
    simp only [Option.getD_some, Option.map_some]
    cases isVowelLetter b <;> by_cases hy : b = 121 <;> simp [hy]

/-- A place that the buffer does not have is not asked about the letters before it either. -/
theorem isConsonant?_isSome_iff : (isConsonant? w i).isSome ↔ i < w.length := by
  refine ⟨fun hsome ↦ ?_, fun h ↦ by rw [isConsonant?_eq h]; rfl⟩
  by_contra hnot
  have hnone : w[i]? = none := List.getElem?_eq_none (Nat.not_lt.1 hnot)
  cases i <;> rw [isConsonant?, hnone] at hsome <;> cases hsome

/-! ### The walk -/

/-- Whether a place has a consonant behind a vowel. -/
def isTurn (w : Bytes) (i : Nat) : Bool :=
  0 < i && !isConsonantAt w (i - 1) && isConsonantAt w i

/-- The number of turns before a place. -/
def turnsBefore (w : Bytes) (i : Nat) : Nat :=
  (List.range i).countP (isTurn w)

theorem turnsBefore_succ (w : Bytes) (i : Nat) :
    turnsBefore w (i + 1) = turnsBefore w i + if isTurn w i then 1 else 0 := by
  rw [turnsBefore, List.range_succ, List.countP_append, List.countP_singleton]
  rfl

/-- The walk stands behind a consonant or at the front, or it stands behind a vowel. -/
def Stands (w : Bytes) (behindConsonant : Bool) (i : Nat) : Prop :=
  if behindConsonant then i = 0 ∨ isConsonantAt w (i - 1) = true
  else 0 < i ∧ isConsonantAt w (i - 1) = false

theorem stands_succ (w : Bytes) (i : Nat) : Stands w (isConsonantAt w i) (i + 1) := by
  cases h : isConsonantAt w i <;> simp [Stands, h]

/-- Where the walk stands decides whether the next letter makes a turn. -/
theorem Stands.isTurn_eq {behindConsonant : Bool} (h : Stands w behindConsonant i) :
    isTurn w i = (!behindConsonant && isConsonantAt w i) := by
  cases behindConsonant with
  | true => rcases h with rfl | h <;> simp [isTurn, *]
  | false =>
    obtain ⟨hpos, h⟩ := h
    simp [isTurn, h, hpos]

/-- The loop that the walk is in. -/
def walk (behindConsonant : Bool) (w : Bytes) (stop i turns : Nat) : Option Nat :=
  if behindConsonant then overConsonants w stop i turns else overVowels w stop i turns

theorem walk_stop (behindConsonant : Bool) (w : Bytes) (stop turns : Nat) :
    walk behindConsonant w stop stop turns = some turns := by
  cases behindConsonant
  · show overVowels w stop stop turns = _
    rw [overVowels, if_pos (Nat.le_refl stop)]
  · show overConsonants w stop stop turns = _
    rw [overConsonants, if_pos (Nat.le_refl stop)]

/-- **One letter of the walk**: it goes on in the loop of that letter, and a consonant behind a
vowel has been counted. -/
theorem walk_step {behindConsonant : Bool} {turns : Nat} (hi : i < stop) (hletter : i < w.length) :
    walk behindConsonant w stop i turns = walk (isConsonantAt w i) w stop (i + 1)
      (turns + if !behindConsonant && isConsonantAt w i then 1 else 0) := by
  cases behindConsonant
  · show overVowels w stop i turns = _
    rw [overVowels, if_neg (Nat.not_le.2 hi), isConsonant?_eq hletter]
    cases isConsonantAt w i <;> rfl
  · show overConsonants w stop i turns = _
    rw [overConsonants, if_neg (Nat.not_le.2 hi), isConsonant?_eq hletter]
    cases isConsonantAt w i <;> rfl

/-- **From wherever it stands the walk comes to the end of the stem** with all turns counted, if
those before that place are. -/
theorem walk_eq {behindConsonant : Bool} (hstop : stop ≤ w.length) (hi : i ≤ stop)
    (h : Stands w behindConsonant i) :
    walk behindConsonant w stop i (turnsBefore w i) = some (turnsBefore w stop) := by
  induction hleft : stop - i generalizing i behindConsonant with
  | zero =>
    obtain rfl : i = stop := by omega
    exact walk_stop behindConsonant w i (turnsBefore w i)
  | succ left ih =>
    have hlt : i < stop := by omega
    rw [walk_step hlt (Nat.lt_of_lt_of_le hlt hstop), ← h.isTurn_eq, ← turnsBefore_succ]
    exact ih hlt (stands_succ w i) (by omega)

theorem measure?_eq (hstop : stop ≤ w.length) : measure? w stop = some (turnsBefore w stop) := by
  have hwalk : walk true w stop 0 (turnsBefore w 0) = some (turnsBefore w stop) :=
    walk_eq hstop (Nat.zero_le stop) (.inl rfl)
  exact hwalk

/-! ### The measure of the stem -/

/-- The turns before a place are those of the word that ends there. -/
theorem turnsBefore_eq_measure (hstop : stop ≤ w.length) :
    turnsBefore w stop = measure (w.take stop) := by
  have hletter : ∀ i < stop, isConsonantAt w i = isConsonantAt (w.take stop) i :=
    fun i hi ↦ (isConsonantAt_take hi hstop).symm
  rw [measure_eq_runs, runs, turnsBefore, List.length_take, Nat.min_eq_left hstop]
  refine List.countP_congr fun i hi ↦ ?_
  have hi : i < stop := List.mem_range.1 hi
  rw [isTurn, hletter i hi, hletter (i - 1) (by omega)]

theorem turnsBefore_eq_card (hstop : stop ≤ w.length) : turnsBefore w stop =
    {i ∈ Finset.Ioo 0 stop | isConsonant? w (i - 1) = some false ∧
      isConsonant? w i = some true}.card := by
  have hcount : turnsBefore w stop = {i ∈ Finset.range stop | isTurn w i}.card := by
    rw [turnsBefore, List.countP_eq_length_filter,
      ← List.toFinset_card_of_nodup (List.nodup_range.filter _), List.toFinset_filter,
      List.toFinset_range]
  rw [hcount]
  congr 1
  ext i
  simp only [Finset.mem_filter, Finset.mem_range, Finset.mem_Ioo]
  constructor
  · rintro ⟨hi, hturn⟩
    rw [isConsonant?_eq (by omega), isConsonant?_eq (by omega)]
    simpa [isTurn, hi, and_assoc] using hturn
  · rintro ⟨⟨hpos, hi⟩, hturn⟩
    rw [isConsonant?_eq (by omega), isConsonant?_eq (by omega)] at hturn
    simpa [isTurn, hpos, hi] using hturn

/-- **The walk counts the places of a stem where a consonant stands behind a vowel.** It comes to an
end with their number, which is the measure of the stem as a word of its own; `y` is a consonant
exactly at the front and behind a vowel. -/
theorem measure?_counts (w : Bytes) {stop : Nat} (h : stop ≤ w.length) :
    measure? w stop = some {i ∈ Finset.Ioo 0 stop | isConsonant? w (i - 1) = some false ∧
        isConsonant? w i = some true}.card ∧
      measure? w stop = some (measure (w.take stop)) ∧
      ∀ i b, i < stop → w[i]? = some b → ∃ consonant, isConsonant? w i = some consonant ∧
        (consonant = true ↔ b ∉ utf8 "aeiou" ∧
          (b = 121 → i = 0 ∨ isConsonant? w (i - 1) = some false)) := by
  refine ⟨?_, ?_, fun i b hi hb ↦ ⟨isConsonantAt w i, isConsonant?_eq (by omega), ?_⟩⟩
  · rw [measure?_eq h, turnsBefore_eq_card h]
  · rw [measure?_eq h, turnsBefore_eq_measure h]
  · rw [isConsonantAt_iff hb, isConsonant?_eq (by omega), Option.some.injEq]

/-- Each `y` is a vowel behind a consonant; the last two letters are no part of the stem. -/
theorem measure?_counts_syzygy :
    6 ≤ (utf8 "syzygyed").length ∧ measure? (utf8 "syzygyed") 6 = some 2 ∧
      measure (utf8 "syzygy") = 2 ∧ isConsonant? (utf8 "syzygyed") 5 = some false := by
  have hlength : 6 ≤ (utf8 "syzygyed").length := by decide
  obtain ⟨hcard, hmeasure, -⟩ := measure?_counts (utf8 "syzygyed") hlength
  have htwo : measure? (utf8 "syzygyed") 6 = some 2 := hcard.trans (by decide)
  exact ⟨hlength, htwo, Option.some.inj (hmeasure.symm.trans htwo), by decide⟩

end Concordance.English.Buffer
