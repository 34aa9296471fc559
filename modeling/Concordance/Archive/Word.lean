import Concordance.Bytes

/-!
# Numbers as bytes

A number of fixed width is written as its bytes, the least significant first.
-/

namespace Concordance.Archive

/-- The `width` lowest bytes of a number, the least significant first. -/
def littleEndian : Nat → Nat → Bytes
  | 0, _ => []
  | width + 1, n => (n % 256).toUInt8 :: littleEndian width (n / 256)

/-- The number that bytes stand for, the least significant first. -/
def ofLittleEndian : Bytes → Nat
  | [] => 0
  | b :: s => b.toNat + 256 * ofLittleEndian s

/-- As many bytes as the width says. -/
@[simp] theorem length_littleEndian (width n : Nat) : (littleEndian width n).length = width := by
  induction width generalizing n with
  | zero => rfl
  | succ width ih => simp [littleEndian, ih]

end Concordance.Archive
