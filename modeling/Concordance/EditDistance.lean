import Concordance.Counter

/-!
# Bounded edit distance

The distance of two texts is the least number of characters to insert, delete or replace that turns
one into the other. It is computed row by row: row `i` holds the distances of the first `i`
characters of one text to the beginnings of the other. Two rows are kept, and a new one is written
over the older of them. Only distances up to a bound matter, so the computation gives up when the
lengths differ by more, or when a whole row exceeds the bound; one more than the bound then stands
for every greater distance.

The bound is a word of 32 bits, and so is one more than it. Lengths, places and cells are numbers of
any kind to count with; if one of them is not there, the computation has no result. All that matters
about a character is whether it is the same as another, so a text may be a list of anything that can
be compared.
-/

namespace Concordance.EditDistance

open Counter

variable {α : Type} [DecidableEq α] {N : Type} [Counter N]

/-- The numbers from zero on, as many as are asked for. -/
def numbers? : (m : Nat) → Option (Vector N m)
  | 0 => some #v[]
  | m + 1 => do
    let row ← numbers? m
    return row.push (← ofNat? m)

/-- The rest of a row after cell `j`, written over what `row` holds there, and the least cell of the
whole row. `above` is the row above, and `least` the least cell up to `j`. -/
def fill? {m : Nat} (c : α) (above : Vector N (m + 1)) :
    (rest : List α) → (j : Nat) → j + rest.length = m → Vector N (m + 1) → N →
      Option (Vector N (m + 1) × N)
  | [], _, _, row, least => some (row, least)
  | d :: rest, j, h, row, least => do
    have hrest : j + 1 + rest.length = m := by
      rw [List.length_cons] at h
      omega
    let up ← add? above[j + 1] 1
    let left ← add? row[j] 1
    let diagonal ← add? above[j] (if c = d then 0 else 1)
    let cell := lesser (lesser up left) diagonal
    fill? c above rest (j + 1) hrest (row.set (j + 1) cell) (lesser least cell)

/-- The last cell after all rows for the rest of the first text, or `none` if a whole row exceeds
the bound. `i` is the number of the next row, which is written over `spare`. -/
def run? (bound : Int) (b : List α) (above spare : Vector N (b.length + 1)) (i : N) :
    List α → Option (Option N)
  | [] => some (some above[b.length])
  | c :: rest => do
    let next ← fill? c above b 0 (Nat.zero_add _) (spare.set 0 i) i
    if bound < value next.2 then return none
    run? bound b next.1 above (← add? i 1) rest

/-- The distance that has been found, or one more than the bound if that is less or none has been
found. -/
def cutOff (bound : Int32) : Option N → Int32
  | some d => if (bound + 1).toInt < value d then bound + 1 else .ofNat (value d)
  | none => bound + 1

/-- **The distance of two texts if it is within the bound, and one more than the bound else**, by
the numbers that there are to count with. -/
def bounded? (N : Type) [Counter N] (a b : List α) (bound : Int32) : Option Int32 := do
  if bound.toInt < ((a.length : Int) - b.length).natAbs then return bound + 1
  -- a row has one cell more than the text has characters
  guard (Has N (b.length + 1))
  let first : Vector N (b.length + 1) ← numbers? _
  let zero ← ofNat? 0
  return cutOff bound (← run? bound.toInt b first (.replicate _ zero) (← ofNat? 1) a)

/-- The distance of two texts within a bound, by natural numbers. These do not come to an end, so
there always is a result. -/
def bounded (a b : List α) (bound : Int32) : Int32 :=
  (bounded? Nat a b bound).getD (bound + 1)

end Concordance.EditDistance
