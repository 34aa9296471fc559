/-!
# Numbers to count with

The length of a list is a number of any size. A signed word of 32 bits keeps it without the bits
above these, so a list of `2 ^ 31` items or more is taken for a shorter one, or for one whose length
is negative. What stands before the place that is found in this way has been *reached*, and that is
all of the list exactly if its length is a number below `2 ^ 31`, which is written `0x80000000` here
(`reached_eq_self_iff`).

Whoever counts on from a place may come to the last number there is. So a computation that counts
is written for any numbers to count with (`Counter`), and has a result as long as they last. The
natural numbers always do, and signed words of 32 bits last up to `2 ^ 31`.
-/

namespace Concordance

/-! ### Lengths of 32 bits -/

variable {α : Type} {s : List α}

/-- The length of a list as a signed word of 32 bits keeps it. -/
def length32 (s : List α) : Int32 :=
  .ofNat s.length

/-- The items of a list before the place that is its length in 32 bits. None stands before a
negative place. -/
def reached (s : List α) : List α :=
  s.take (length32 s).toInt.toNat

/-- The length in 32 bits of a list that is not too long is its length. -/
theorem toInt_length32 (h : s.length < 0x80000000) : (length32 s).toInt = s.length :=
  Int32.toInt_ofNat_of_lt h

/-- No bits are added to a length. -/
theorem toInt_length32_le (s : List α) : (length32 s).toInt ≤ s.length := by
  have hsize : (Int32.size : Int) = 0x100000000 := rfl
  rw [length32, Int32.toInt_ofNat', Int.bmod_def, hsize]
  split <;> omega

/-- All of a list is reached if it is not too long. -/
theorem reached_of_lt (h : s.length < 0x80000000) : reached s = s := by
  rw [reached, toInt_length32 h, Int.toNat_natCast, List.take_length]

/-- Its length in 32 bits is what is reached of it. -/
theorem length_reached (s : List α) : (reached s).length = (length32 s).toInt.toNat := by
  have hle := toInt_length32_le s
  rw [reached, List.length_take]
  omega

theorem length_reached_lt (s : List α) : (reached s).length < 0x80000000 := by
  have hlt := (length32 s).toInt_lt
  rw [length_reached]
  omega

/-- **All of a list is reached exactly if its length is a signed word of 32 bits.** -/
theorem reached_eq_self_iff : reached s = s ↔ s.length < 0x80000000 := by
  refine ⟨fun h ↦ ?_, reached_of_lt⟩
  rw [← h]
  exact length_reached_lt s

theorem reached_isPrefix (s : List α) : reached s <+: s :=
  List.take_prefix ..

/-- With the first length that is not kept nothing is reached. -/
theorem reached_of_length_eq (h : s.length = 0x80000000) : reached s = [] := by
  have hlength : length32 s = Int32.minValue := by
    rw [length32, h]
    rfl
  rw [reached, hlength]
  exact List.take_zero

/-! ### Counters -/

/-- Numbers to count with, which may come to an end. -/
class Counter (N : Type) where
  /-- The number that is meant. -/
  value : N → Nat
  /-- A number, if it is one to count with. -/
  ofNat? : Nat → Option N
  value_of_ofNat? {n : Nat} {x : N} (h : ofNat? n = some x) : value x = n

/-- The natural numbers have no end. -/
instance : Counter Nat where
  value n := n
  ofNat? n := some n
  value_of_ofNat? h := (Option.some.inj h).symm

/-- The numbers that a signed word of 32 bits can hold. -/
instance : Counter Int32 where
  value n := n.toInt.toNat
  ofNat? n := if n < 0x80000000 then some (.ofNat n) else none
  value_of_ofNat? {n x} h := by
    split at h
    · rename_i hn
      rw [← Option.some.inj h, Int32.toInt_ofNat_of_lt hn, Int.toNat_natCast]
    · cases h

namespace Counter

/-- Whether a number is one to count with. -/
def Has (N : Type) [Counter N] (n : Nat) : Prop :=
  (ofNat? n : Option N).isSome

instance (N : Type) [Counter N] (n : Nat) : Decidable (Has N n) :=
  inferInstanceAs (Decidable (_ = true))

/-- All natural numbers are there to count with. -/
theorem has_nat (n : Nat) : Has Nat n :=
  rfl

/-- Signed words of 32 bits are there below `2 ^ 31`. -/
theorem has_int32_iff {n : Nat} : Has Int32 n ↔ n < 0x80000000 := by
  show (if n < 0x80000000 then some (Int32.ofNat n) else none).isSome ↔ _
  split
  · rename_i hn
    exact iff_of_true rfl hn
  · rename_i hn
    exact iff_of_false Bool.false_ne_true hn

variable {N : Type} [Counter N]

/-- So much more than a number, if the numbers last. -/
def add? (x : N) (k : Nat) : Option N :=
  ofNat? (value x + k)

/-- The lesser of two numbers. -/
def lesser (x y : N) : N :=
  if value x ≤ value y then x else y

/-- A number that is there is the one that is meant. -/
theorem exists_ofNat? {n : Nat} (h : Has N n) : ∃ x : N, ofNat? n = some x ∧ value x = n := by
  obtain ⟨x, hx⟩ := Option.isSome_iff_exists.1 h
  exact ⟨x, hx, value_of_ofNat? hx⟩

/-- So is a sum that is there. -/
theorem exists_add? {x : N} {k : Nat} (h : Has N (value x + k)) :
    ∃ y : N, add? x k = some y ∧ value y = value x + k :=
  exists_ofNat? h

@[simp] theorem value_lesser (x y : N) : value (lesser x y) = min (value x) (value y) := by
  rw [lesser]
  split
  · rename_i hle
    exact (Nat.min_eq_left hle).symm
  · rename_i hle
    exact (Nat.min_eq_right (Nat.le_of_not_le hle)).symm

end Counter

end Concordance
