import Concordance.Matches

/-!
# Ranking

Matches are ranked by score, the higher first, and those of equal scores by identifier. If every
score is a number this is a total order, and the ranking is the only way to put the matches in it. A
score that is no number is neither before nor after any other, so where its match ends up depends on
how the matches are sorted, and that is part of what a ranking is.

Sorting takes two steps. First a long row of matches is split around pivots until its parts are
short, so that every match comes close to its place. A part that has been split very often and is
still long is put in order by way of a heap. Then the matches are put in one after another, each in
front of those at the end that it precedes. The second step alone sorts; the first makes it fast.
-/

namespace Concordance

/-- The rank order: a higher score first, and of equal scores the smaller identifier. -/
def Match.precedes (m n : Match) : Bool :=
  if m.score != n.score then m.score > n.score else m.doc < n.doc

namespace Ranking

/-- The length up to which a part counts as short. -/
def short : Nat := 16

/-! ### Splitting -/

/-- Whether the match at one place precedes that at another. -/
def before (row : Array Match) (i j : Nat) : Bool :=
  match row[i]?, row[j]? with
  | some m, some n => m.precedes n
  | _, _ => false

/-- Of three places the one whose match is between those of the others. -/
def middle (row : Array Match) (a b c : Nat) : Nat :=
  if before row a b then if before row b c then b else if before row a c then c else a
  else if before row a c then a
  else if before row b c then c
  else b

/-- The first place from `i` on whose match does not precede the pivot. -/
def ascend (row : Array Match) (pivot : Match) (i : Nat) : Nat :=
  if h : i < row.size then if row[i].precedes pivot then ascend row pivot (i + 1) else i else i
termination_by row.size - i

/-- The last place down from `i` whose match the pivot does not precede. -/
def descend (row : Array Match) (pivot : Match) : Nat → Nat
  | 0 => 0
  | i + 1 =>
    match row[i + 1]? with
    | some m => if pivot.precedes m then descend row pivot i else i + 1
    | none => i + 1

/-- Going down does not go up. -/
theorem descend_le (row : Array Match) (pivot : Match) (i : Nat) : descend row pivot i ≤ i := by
  induction i with
  | zero => exact Nat.le_refl 0
  | succ i ih =>
    rw [descend]
    split
    · split
      · exact Nat.le_succ_of_le ih
      · exact Nat.le_refl _
    · exact Nat.le_refl _

/-- The row with the matches from `first` to before `last` split: those at the front do not come
after the pivot, and those from the place given back on do not come before it. -/
def split (row : Array Match) (pivot : Match) (first last : Nat) : Array Match × Nat :=
  let i := ascend row pivot first
  let j := descend row pivot (last - 1)
  if i < j then split (row.swapIfInBounds i j) pivot (i + 1) j else (row, i)
termination_by last
decreasing_by
  have := descend_le row pivot (last - 1)
  omega

/-! ### Heaps

The part of a row from `base` on is read as a tree in which the places `2 * i + 1` and `2 * i + 2`
are below the place `i`. In a heap no match precedes the one above it. -/

/-- The row with the match at place `i` of a tree of `size` places brought down to a leaf, where at
each place the later of the matches below goes up, and the place where it arrives. -/
def sink (row : Array Match) (base size i : Nat) : Array Match × Nat :=
  let below := 2 * (i + 1)
  if below < size then
    if before row (base + below) (base + (below - 1)) then
      sink (row.swapIfInBounds (base + i) (base + (below - 1))) base size (below - 1)
    else sink (row.swapIfInBounds (base + i) (base + below)) base size below
  else if below = size then
    (row.swapIfInBounds (base + i) (base + (below - 1)), below - 1)
  else (row, i)
termination_by size - i

/-- The row with the match at place `i` of a tree brought up to its place, but not above `top`. -/
def rise (row : Array Match) (base top i : Nat) : Array Match :=
  if top < i then
    let parent := (i - 1) / 2
    if before row (base + parent) (base + i) then
      rise (row.swapIfInBounds (base + parent) (base + i)) base top parent
    else row
  else row
termination_by i

/-- The row with a tree made a heap from place `i` down, if it is one from each place below. -/
def settle (row : Array Match) (base size i : Nat) : Array Match :=
  let (row, leaf) := sink row base size i
  rise row base i leaf

/-- The row with a tree made a heap from each of its first `n` places down, the last of them
first. -/
def heaped (row : Array Match) (base size : Nat) : Nat → Array Match
  | 0 => row
  | n + 1 => heaped (settle row base size n) base size n

/-- The row with a heap of the given size put in order: the top goes to the end, and what is left is
a heap again. -/
def drained (row : Array Match) (base : Nat) : Nat → Array Match
  | 0 => row
  | n + 1 => drained (settle (row.swapIfInBounds base (base + n)) base n 0) base n

/-- The row with its part from `first` to before `last` put in order by way of a heap. -/
def throughHeap (row : Array Match) (first last : Nat) : Array Match :=
  let size := last - first
  drained (heaped row first size (size / 2)) first size

/-! ### Narrowing -/

/-- The row with its part from `first` to before `last` split again and again until what is left is
short. What is not short after `depth` times is put in order. -/
def narrow (row : Array Match) (first last : Nat) : Nat → Array Match
  | 0 => if last - first ≤ short then row else throughHeap row first last
  | depth + 1 =>
    if last - first ≤ short then row
    else
      let row := row.swapIfInBounds first
        (middle row (first + 1) (first + (last - first) / 2) (last - 1))
      match row[first]? with
      | none => row
      | some pivot =>
        let (row, cut) := split row pivot (first + 1) last
        narrow (narrow row cut last depth) first cut depth

/-! ### Putting in -/

/-- A match put into others, which stand from the last to the first: behind all but those that it
precedes. -/
def putIn (m : Match) : Matches → Matches
  | [] => [m]
  | n :: rest => if m.precedes n then n :: putIn m rest else m :: n :: rest

/-- A match put into others, which stand from the last to the first. One that precedes the first of
them goes before all. -/
def putFirst (m : Match) (behind : Matches) : Matches :=
  match behind.getLast? with
  | some first => if m.precedes first then behind ++ [m] else putIn m behind
  | none => [m]

end Ranking

/-- Matches from the best to the worst. -/
def Matches.ranked (ms : Matches) : Matches :=
  let row := (Ranking.narrow ms.toArray 0 ms.length (2 * ms.length.log2)).toList
  let start := (row.take Ranking.short).foldl (fun behind m ↦ Ranking.putFirst m behind) []
  ((row.drop Ranking.short).foldl (fun behind m ↦ Ranking.putIn m behind) start).reverse

end Concordance
