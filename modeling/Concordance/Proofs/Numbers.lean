import Concordance.Index.Basic
import Mathlib.Data.List.Basic
import Mathlib.Algebra.BigOperators.Group.List.Basic
import Mathlib.Algebra.Ring.Nat

/-!
# Numbers of 32 and 64 bits

An index counts with words of 32 and 64 bits, which wrap around. Wrapping around respects sums, so
a total is the word of the total; and it changes no number that is small enough. Bounds are signed
words, and after the greatest of these comes the least.
-/

namespace Concordance

theorem toUInt32_add (m n : Nat) : (m + n).toUInt32 = m.toUInt32 + n.toUInt32 :=
  UInt32.ofNat_add m n

theorem toUInt64_add (m n : Nat) : (m + n).toUInt64 = m.toUInt64 + n.toUInt64 :=
  UInt64.ofNat_add m n

/-- Words add up to the word of the sum. -/
theorem total_map_toUInt32 {α : Type} (f : α → Nat) (l : List α) :
    total (l.map fun x ↦ (f x).toUInt32) = ((l.map f).sum).toUInt32 := by
  induction l with
  | nil => rfl
  | cons x l ih => rw [List.map_cons, total, ih, List.map_cons, List.sum_cons, toUInt32_add]

/-- A sum does not depend on what is nothing. -/
theorem sum_map_filter {α : Type} {f : α → Nat} {p : α → Bool} {l : List α}
    (h : ∀ x ∈ l, ¬ p x = true → f x = 0) : ((l.filter p).map f).sum = (l.map f).sum := by
  induction l with
  | nil => rfl
  | cons x l ih =>
    obtain ⟨hx, hl⟩ := List.forall_mem_cons.1 h
    rw [List.filter_cons, List.map_cons, List.sum_cons, ← ih hl]
    split
    · rw [List.map_cons, List.sum_cons]
    · rename_i hnot
      rw [hx hnot, Nat.zero_add]

/-- A number that fits into 32 bits is not changed by them. -/
theorem toNat_toUInt32_of_lt {n : Nat} (h : n < 2 ^ 32) : n.toUInt32.toNat = n := by
  rw [Nat.toUInt32, UInt32.toNat_ofNat', Nat.mod_eq_of_lt h]

/-- A number is zero as a word exactly if it wraps around to it. -/
theorem toUInt32_eq_zero_iff {n : Nat} : n.toUInt32 = 0 ↔ 2 ^ 32 ∣ n := by
  rw [← UInt32.toNat_inj, Nat.toUInt32, UInt32.toNat_ofNat', Nat.dvd_iff_mod_eq_zero]
  rfl

/-- A number that does not wrap around to zero is not zero. -/
theorem pos_of_not_dvd {n : Nat} (h : ¬ 2 ^ 32 ∣ n) : 0 < n :=
  Nat.pos_of_ne_zero fun hzero ↦ h (hzero ▸ Nat.dvd_zero _)

/-- A number that fits into 32 bits does not wrap around. -/
theorem not_dvd_iff_pos {n : Nat} (h : n < 2 ^ 32) : ¬ 2 ^ 32 ∣ n ↔ 0 < n :=
  ⟨pos_of_not_dvd, fun hpos ↦ Nat.not_dvd_of_pos_of_lt hpos h⟩

/-- A number that fits into 64 bits is not changed by them. -/
theorem toNat_toUInt64_of_lt {n : Nat} (h : n < 2 ^ 64) : n.toUInt64.toNat = n := by
  rw [Nat.toUInt64, UInt64.toNat_ofNat', Nat.mod_eq_of_lt h]

theorem toNat_min (m n : UInt64) : (min m n).toNat = min m.toNat n.toNat := by
  show (if m ≤ n then m else n).toNat = _
  split
  · rename_i hle
    exact (Nat.min_eq_left (UInt64.le_iff_toNat_le.1 hle)).symm
  · rename_i hle
    exact (Nat.min_eq_right (Nat.le_of_not_le fun h ↦ hle (UInt64.le_iff_toNat_le.2 h))).symm

theorem toUInt32_toUInt64_of_lt {n : Nat} (h : n < 2 ^ 32) : n.toUInt32.toUInt64 = n.toUInt64 := by
  refine UInt64.toNat_inj.1 ?_
  rw [UInt32.toNat_toUInt64, toNat_toUInt32_of_lt h, Nat.toUInt64, UInt64.toNat_ofNat',
    Nat.mod_eq_of_lt (by omega)]

/-- A signed word that is not negative is positive or zero. -/
theorem toInt_pos_or_eq_zero {n : Int32} (h : 0 ≤ n.toInt) : 0 < n.toInt ∨ n = 0 := by
  rw [← Int32.toInt_inj, Int32.toInt_zero]
  omega

/-- One more than a signed word, unless it is the greatest. -/
theorem toInt_add_one {n : Int32} (h : n.toInt < 2 ^ 31 - 1) : (n + 1).toInt = n.toInt + 1 := by
  have hlow := n.le_toInt
  rw [Int32.toInt_add, show (1 : Int32).toInt = 1 from rfl, Int.bmod_eq_of_le] <;> omega

/-- One more than the greatest signed word is the least. -/
theorem toInt_add_one_of_greatest {n : Int32} (h : n.toInt = 2 ^ 31 - 1) :
    (n + 1).toInt = -2 ^ 31 := by
  rw [Int32.toInt_add, h]
  rfl

end Concordance
