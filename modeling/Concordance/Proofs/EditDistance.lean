import Concordance.EditDistance
import Concordance.Proofs.Numbers
import Mathlib.Data.List.Basic
import Mathlib.Data.Option.Basic
import Mathlib.Order.MinMax
import Mathlib.Algebra.Ring.Int.Defs

/-!
# The edit distance

`distance` is the textbook recursion for the least number of characters to insert, delete or
replace, and `Alignment` says the same as a derivation: what one column of two texts written below
each other costs. Alignments can be read from either end, so `distance` can be computed from the
front as well as from the back (`distance_reverse`).

That is what the table needs. Its rows belong to the beginnings of the first text and its cells to
those of the second, so a cell is the distance of two beginnings read backwards (`IsRow`), and one
row leads to the next by the recursion itself, whatever it is written over (`exists_fill?`). No cell
exceeds the length of the longer text (`IsRow.le`), so the numbers to count with last as long as
they last for the lengths, and no row has a smaller least cell than the row before it
(`Beyond.append`), which makes it sound to give up early. Together they show that the computation
within a bound gives the distance, or one more than the bound (`exists_bounded?`, `toInt_cutOff`).
-/

namespace Concordance.EditDistance

variable {α : Type}

/-! ### Alignments -/

/-- Two texts written below each other, with gaps, at a cost of one for each column that does not
hold the same character twice. -/
inductive Alignment : List α → List α → Nat → Prop where
  | nil : Alignment [] [] 0
  | keep {c : α} {a b : List α} {n : Nat} :
      Alignment a b n → Alignment (c :: a) (c :: b) n
  | replace {c d : α} {a b : List α} {n : Nat} :
      Alignment a b n → Alignment (c :: a) (d :: b) (n + 1)
  | delete {c : α} {a b : List α} {n : Nat} :
      Alignment a b n → Alignment (c :: a) b (n + 1)
  | insert {d : α} {a b : List α} {n : Nat} :
      Alignment a b n → Alignment a (d :: b) (n + 1)

namespace Alignment

variable {a b a' b' : List α} {m n : Nat}

/-- Alignments stand side by side. -/
theorem append (h : Alignment a b m) (h' : Alignment a' b' n) :
    Alignment (a ++ a') (b ++ b') (m + n) := by
  induction h with
  | nil => simpa using h'
  | keep _ ih => exact ih.keep
  | replace _ ih => exact Nat.add_right_comm _ n 1 ▸ ih.replace
  | delete _ ih => exact Nat.add_right_comm _ n 1 ▸ ih.delete
  | insert _ ih => exact Nat.add_right_comm _ n 1 ▸ ih.insert

/-- **An alignment can be read backwards.** -/
theorem reverse (h : Alignment a b n) : Alignment a.reverse b.reverse n := by
  induction h with
  | nil => exact nil
  | keep _ ih => simpa using ih.append nil.keep
  | replace _ ih => simpa using ih.append nil.replace
  | delete _ ih => simpa using ih.append nil.delete
  | insert _ ih => simpa using ih.append nil.insert

/-- The lengths of two texts differ by at most the cost. -/
theorem length_le (h : Alignment a b n) : a.length ≤ b.length + n ∧ b.length ≤ a.length + n := by
  induction h with
  | nil => exact ⟨Nat.le_refl _, Nat.le_refl _⟩
  | keep _ ih | replace _ ih | delete _ ih | insert _ ih =>
    simp only [List.length_cons]
    omega

/-- A text is aligned with itself at no cost. -/
theorem refl (a : List α) : Alignment a a 0 := by
  induction a with
  | nil => exact nil
  | cons c a ih => exact ih.keep

end Alignment

variable [DecidableEq α]

/-! ### The distance -/

/-- The distances from a text that begins with `c`, from the distances of what follows it. -/
def distanceCons (c : α) (rest : List α → Nat) : List α → Nat
  | [] => rest [] + 1
  | d :: b =>
    min (min (rest (d :: b) + 1) (distanceCons c rest b + 1)) (rest b + if c = d then 0 else 1)

/-- The least number of characters to insert, delete or replace that turns one text into the
other. -/
def distance : List α → List α → Nat
  | [] => List.length
  | c :: a => distanceCons c (distance a)

@[simp] theorem distance_nil (b : List α) : distance [] b = b.length := rfl

theorem distance_cons_nil (c : α) (a : List α) :
    distance (c :: a) [] = distance a [] + 1 := rfl

/-- **The recursion for the distance.** -/
theorem distance_cons_cons (c d : α) (a b : List α) :
    distance (c :: a) (d :: b) =
      min (min (distance a (d :: b) + 1) (distance (c :: a) b + 1))
        (distance a b + if c = d then 0 else 1) := rfl

/-- To come to nothing all characters have to go. -/
@[simp] theorem distance_nil_right (a : List α) : distance a [] = a.length := by
  induction a with
  | nil => rfl
  | cons c a ih => rw [distance_cons_nil, ih, List.length_cons]

/-- No alignment costs less than the distance. -/
theorem Alignment.distance_le {a b : List α} {n : Nat} (h : Alignment a b n) :
    distance a b ≤ n := by
  induction h with
  | nil => exact Nat.le_refl 0
  | @keep c a b n _ ih =>
    rw [distance_cons_cons, if_pos rfl]
    omega
  | @replace c d a b n _ ih =>
    rw [distance_cons_cons]
    split <;> omega
  -- what is deleted or inserted may stand beside an empty text, where there is no other choice
  | @delete c a b n _ ih =>
    cases b with
    | nil =>
      rw [distance_cons_nil]
      omega
    | cons d b =>
      rw [distance_cons_cons]
      omega
  | @insert d a b n _ ih =>
    cases a with
    | nil =>
      simp only [distance_nil, List.length_cons] at ih ⊢
      omega
    | cons c a =>
      rw [distance_cons_cons]
      omega

/-- And one costs as much. -/
theorem alignment_distance (a b : List α) : Alignment a b (distance a b) := by
  induction a generalizing b with
  | nil =>
    induction b with
    | nil => exact .nil
    | cons d b ih => exact ih.insert
  | cons c a iha =>
    induction b with
    | nil => exact (iha []).delete
    | cons d b ihb =>
      rw [distance_cons_cons]
      rcases min_choice (min (distance a (d :: b) + 1) (distance (c :: a) b + 1))
        (distance a b + if c = d then 0 else 1) with h | h
      · rw [h]
        rcases min_choice (distance a (d :: b) + 1) (distance (c :: a) b + 1) with h | h
        · rw [h]
          exact (iha (d :: b)).delete
        · rw [h]
          exact ihb.insert
      · rw [h]
        split
        · rename_i hcd
          exact hcd ▸ (iha b).keep
        · exact (iha b).replace

/-- **The distance can be read from either end.** -/
theorem distance_reverse (a b : List α) : distance a.reverse b.reverse = distance a b := by
  refine Nat.le_antisymm (alignment_distance a b).reverse.distance_le ?_
  simpa using (alignment_distance a.reverse b.reverse).reverse.distance_le

@[simp] theorem distance_self (a : List α) : distance a a = 0 :=
  Nat.le_zero.1 (Alignment.refl a).distance_le

/-- Only equal texts have the distance `0`. -/
theorem eq_of_distance_eq_zero {a b : List α} (h : distance a b = 0) : a = b := by
  have key : ∀ {n : Nat} {a b : List α}, Alignment a b n → n = 0 → a = b := by
    intro n a b hab
    induction hab with
    | nil => exact fun _ ↦ rfl
    | keep _ ih => exact fun hn ↦ congrArg _ (ih hn)
    | replace | delete | insert => exact fun hn ↦ absurd hn (Nat.succ_ne_zero _)
  exact key (alignment_distance a b) h

/-- No text is farther from another than the longer of them is long. -/
theorem distance_le_max (a b : List α) : distance a b ≤ max a.length b.length := by
  induction a generalizing b with
  | nil => rw [distance_nil, List.length_nil, Nat.zero_max]
  | cons c a ih =>
    cases b with
    | nil => rw [distance_nil_right, List.length_nil, Nat.max_zero]
    | cons d b =>
      have hrest := ih b
      rw [distance_cons_cons, List.length_cons, List.length_cons]
      split <;> omega

/-! ### Giving up early -/

/-- All distances of a text from the endings of another are above a bound. -/
def Beyond (k : Int) (done text : List α) : Prop :=
  ∀ t, t <:+ text → k < distance done t

section Beyond

variable {k : Int} {c d : α} {done text : List α}

theorem beyond_nil : Beyond k done [] ↔ k < distance done [] := by
  simp only [Beyond, List.suffix_nil, forall_eq]

/-- What is beyond a bound is so with one character less of the second text. -/
theorem beyond_cons :
    Beyond k done (d :: text) ↔ k < distance done (d :: text) ∧ Beyond k done text := by
  simp only [Beyond, List.suffix_cons_iff, forall_eq_or_imp]

theorem Beyond.lt (h : Beyond k done text) : k < distance done text :=
  h text (List.suffix_refl text)

/-- One more character brings none of them within the bound. -/
theorem Beyond.cons (h : Beyond k done text) : Beyond k (c :: done) text := by
  induction text with
  | nil =>
    rw [beyond_nil] at h ⊢
    rw [distance_cons_nil]
    omega
  | cons d text ih =>
    have hrest := (beyond_cons.1 h).2
    have hnext := ih hrest
    refine beyond_cons.2 ⟨?_, hnext⟩
    -- what the recursion looks at is above the bound
    have hup := h.lt
    have hleft := hnext.lt
    have hdiagonal := hrest.lt
    rw [distance_cons_cons]
    split <;> omega

/-- **Rows never get better.** -/
theorem Beyond.append (h : Beyond k done text) (a : List α) : Beyond k (a ++ done) text := by
  induction a with
  | nil => exact h
  | cons c a ih => exact ih.cons

end Beyond

/-! ### The table -/

/-- No beginning of a text is farther from another text than the longer of the two texts is long. -/
theorem distance_take_le (done b : List α) (j : Nat) :
    distance done (b.take j).reverse ≤ max done.length b.length := by
  refine (distance_le_max _ _).trans (max_le_max_left _ ?_)
  rw [List.length_reverse, List.length_take]
  exact Nat.min_le_right _ _

section Table

open Counter

variable {N : Type} [Counter N] {b : List α}

/-- A row of the table: its cells are the distances from the beginnings of the second text. All
texts are read backwards. -/
def IsRow (row : Vector N (b.length + 1)) (done : List α) : Prop :=
  ∀ j (h : j < b.length + 1), value row[j] = distance done (b.take j).reverse

/-- **No cell exceeds the length of the longer text**, so there are numbers for the cells if there
are numbers for the lengths. -/
theorem IsRow.le {row : Vector N (b.length + 1)} {done : List α} (h : IsRow row done) (j : Nat)
    (hj : j < b.length + 1) : value row[j] ≤ max done.length b.length :=
  h j hj ▸ distance_take_le done b j

/-- The numbers from zero on are there as long as the numbers last. -/
theorem exists_numbers? {m : Nat} (hroom : ∀ k < m, Has N k) :
    ∃ row : Vector N m, numbers? m = some row ∧ ∀ j (h : j < m), value row[j] = j := by
  induction m with
  | zero => exact ⟨#v[], rfl, fun j h ↦ absurd h (Nat.not_lt_zero j)⟩
  | succ m ih =>
    obtain ⟨row, hrow, hvalues⟩ := ih fun k hk ↦ hroom k (Nat.lt_succ_of_lt hk)
    obtain ⟨x, hx, hvalue⟩ := exists_ofNat? (hroom m (Nat.lt_succ_self m))
    refine ⟨row.push x, ?_, fun j h ↦ ?_⟩
    · rw [numbers?, hrow, hx]
      rfl
    · rw [Vector.getElem_push]
      split
      · rename_i hj
        exact hvalues j hj
      · rw [hvalue]
        omega

/-- The row before any character of the first text. -/
theorem exists_first (b : List α) (hroom : ∀ k < b.length + 1, Has N k) :
    ∃ row : Vector N (b.length + 1), numbers? _ = some row ∧ IsRow row ([] : List α) := by
  obtain ⟨row, hrow, hvalues⟩ := exists_numbers? hroom
  refine ⟨row, hrow, fun j h ↦ ?_⟩
  rw [hvalues, distance_nil, List.length_reverse, List.length_take]
  omega

omit [DecidableEq α] in
/-- One more character of the second text. -/
theorem take_succ_of_drop {rest : List α} {d : α} {j : Nat} (h : d :: rest = b.drop j) :
    (b.take (j + 1)).reverse = d :: (b.take j).reverse ∧ rest = b.drop (j + 1) := by
  have hj : j < b.length := by
    by_contra hj
    rw [List.drop_eq_nil_of_le (by omega)] at h
    cases h
  rw [List.drop_eq_getElem_cons hj, List.cons.injEq] at h
  rw [List.take_succ_eq_append_getElem hj, List.reverse_append, h.1]
  exact ⟨rfl, h.2⟩

section Row

variable {c : α} {done : List α} {above : Vector N (b.length + 1)} (habove : IsRow above done)
  (hroom : ∀ k ≤ max (done.length + 1) b.length + 1, Has N k)

include habove hroom

/-- What a cell is made of: one more than the cell above and than the cell on its left, and the cell
above on the left, with one more if the characters differ. There are numbers for all of them. -/
theorem exists_cell {d : α} {j : Nat} (hj : j < b.length) {row : Vector N (b.length + 1)}
    (htake : (b.take (j + 1)).reverse = d :: (b.take j).reverse)
    (hrow : value row[j] = distance (c :: done) (b.take j).reverse) :
    ∃ up left diagonal, add? above[j + 1] 1 = some up ∧ add? row[j] 1 = some left ∧
      add? above[j] (if c = d then 0 else 1) = some diagonal ∧
      value (lesser (lesser up left) diagonal) =
        distance (c :: done) (b.take (j + 1)).reverse := by
  have habove₁ := habove.le (j + 1) (by omega)
  have habove₀ := habove.le j (by omega)
  have hleft := hrow.trans_le (distance_take_le (c :: done) b j)
  rw [List.length_cons] at hleft
  obtain ⟨up, hup, hvalue₁⟩ := exists_add? (x := above[j + 1]) (hroom (_ + 1) (by omega))
  obtain ⟨left, hleft', hvalue₂⟩ := exists_add? (x := row[j]) (hroom (_ + 1) (by omega))
  obtain ⟨diagonal, hdiagonal, hvalue₃⟩ := exists_add? (x := above[j])
    (k := if c = d then 0 else 1) (hroom _ (by split <;> omega))
  refine ⟨up, left, diagonal, hup, hleft', hdiagonal, ?_⟩
  rw [value_lesser, value_lesser, hvalue₁, hvalue₂, hvalue₃, habove, habove, hrow, htake,
    distance_cons_cons]

/-- **A row leads to the next.** Its first cells have been written and the least of them is known;
what stands in the others does not matter. -/
theorem exists_fill? {rest : List α} {j : Nat} (h : j + rest.length = b.length)
    (hrest : rest = b.drop j) {row : Vector N (b.length + 1)} {least : N}
    (hrow : ∀ k (hk : k < b.length + 1), k ≤ j →
      value row[k] = distance (c :: done) (b.take k).reverse)
    (hleast : ∀ k : Int, k < value least ↔ Beyond k (c :: done) (b.take j).reverse) :
    ∃ next, fill? c above rest j h row least = some next ∧ IsRow next.1 (c :: done) ∧
      ∀ k : Int, k < value next.2 ↔ Beyond k (c :: done) b.reverse := by
  induction rest generalizing j row least with
  | nil =>
    have hj : j = b.length := h
    refine ⟨(row, least), rfl, fun k hk ↦ hrow k hk (by omega), fun k ↦ ?_⟩
    rw [hleast, hj, List.take_length]
  | cons d rest ih =>
    have hj : j < b.length := by
      rw [List.length_cons] at h
      omega
    obtain ⟨htake, hdrop⟩ := take_succ_of_drop hrest
    obtain ⟨up, left, diagonal, hup, hleft, hdiagonal, hcell⟩ :=
      exists_cell habove hroom hj htake (hrow j (by omega) (Nat.le_refl j))
    rw [fill?, hup, hleft, hdiagonal]
    refine ih _ hdrop (fun k hk hkj ↦ ?_) fun k ↦ ?_
    · rw [Vector.getElem_set]
      split
      · rename_i heq
        subst heq
        exact hcell
      · exact hrow k hk (by omega)
    · rw [value_lesser, hcell, htake, beyond_cons, ← hleast]
      omega

/-- The row for one more character, from its first cell on. -/
theorem exists_row (c : α) (spare : Vector N (b.length + 1)) {i : N}
    (hi : value i = done.length + 1) :
    ∃ next, fill? c above b 0 (Nat.zero_add _) (spare.set 0 i) i = some next ∧
      IsRow next.1 (c :: done) ∧ ∀ k : Int, k < value next.2 ↔ Beyond k (c :: done) b.reverse := by
  have hfirst : value i = distance (c :: done) [] := by
    rw [hi, distance_nil_right, List.length_cons]
  refine exists_fill? habove hroom (Nat.zero_add _) rfl (fun k hk hk0 ↦ ?_) fun k ↦ ?_
  · obtain rfl := Nat.le_zero.1 hk0
    rw [Vector.getElem_set_self, hfirst]
    rfl
  · rw [List.take_zero, List.reverse_nil, beyond_nil, ← hfirst]

end Row

/-- What the computation may find: the distance, or that it is beyond the bound. -/
def Finds (bound : Int) (distance : Nat) : Option N → Prop
  | some d => value d = distance
  | none => bound < distance

/-- **What is left of the computation** after the rows of `done`, whatever stands in the spare
row. -/
theorem exists_run? (bound : Int) (a done : List α) {above : Vector N (b.length + 1)}
    (habove : IsRow above done) (spare : Vector N (b.length + 1)) {i : N}
    (hi : value i = done.length + 1)
    (hroom : ∀ k ≤ max (a.length + done.length) b.length + 1, Has N k) :
    ∃ found, run? bound b above spare i a = some found ∧
      Finds bound (distance (a.reverse ++ done) b.reverse) found := by
  induction a generalizing done above spare i with
  | nil =>
    refine ⟨some above[b.length], rfl, ?_⟩
    show value above[b.length] = _
    rw [habove, List.take_length]
    rfl
  | cons c a ih =>
    rw [List.length_cons] at hroom
    obtain ⟨next, hnext, hrow, hleast⟩ :=
      exists_row habove (fun k hk ↦ hroom k (by omega)) c spare hi
    rw [run?, hnext, List.reverse_cons, List.append_assoc, List.singleton_append,
      Option.bind_eq_bind, Option.bind_some]
    split
    · -- the row is beyond the bound, and so is every row after it
      rename_i hlt
      exact ⟨none, rfl, (((hleast bound).1 hlt).append a.reverse).lt⟩
    · obtain ⟨i', hi', hvalue⟩ := exists_add? (x := i) (k := 1) (hroom _ (by omega))
      rw [hi']
      refine ih (c :: done) hrow above ?_ fun k hk ↦ hroom k ?_
      · rw [hvalue, hi, List.length_cons]
      · rw [List.length_cons] at hk
        omega

end Table

/-! ### The distance within a bound -/

section Bounded

open Counter

variable {N : Type} [Counter N] {a b : List α} {bound : Int32}

/-- The computation comes to an end if there are numbers for one more than the lengths. -/
theorem exists_bounded? (bound : Int32) (hroom : ∀ k ≤ max a.length b.length + 1, Has N k) :
    ∃ found : Option N, bounded? N a b bound = some (cutOff bound found) ∧
      Finds bound.toInt (distance a b) found := by
  have hlength := (alignment_distance a b).length_le
  rw [bounded?]
  split
  · -- the lengths alone are a lower bound of the distance
    refine ⟨none, rfl, ?_⟩
    show bound.toInt < _
    omega
  · obtain ⟨first, hfirst, hrow⟩ := exists_first (N := N) b fun k hk ↦ hroom k (by omega)
    obtain ⟨zero, hzero, -⟩ := exists_ofNat? (hroom 0 (Nat.zero_le _))
    obtain ⟨one, hone, hvalue⟩ := exists_ofNat? (hroom 1 (by omega))
    obtain ⟨found, hfound, hfinds⟩ :=
      exists_run? bound.toInt a [] hrow (.replicate _ zero) hvalue hroom
    rw [List.append_nil, distance_reverse] at hfinds
    refine ⟨found, ?_, hfinds⟩
    rw [guard, if_pos (hroom (b.length + 1) (by omega))]
    simp only [hfirst, hzero, hone, hfound, Option.pure_def, Option.bind_eq_bind, Option.bind_some]

/-- It does not if there is no number for the cells of a row. -/
theorem bounded?_eq_none (hgap : ((a.length : Int) - b.length).natAbs ≤ bound.toInt)
    (hcells : ¬ Has N (b.length + 1)) : bounded? N a b bound = none := by
  rw [bounded?, if_neg (Int.not_lt.2 hgap), guard, if_neg hcells]
  rfl

/-- What is found is the distance, cut off at one more than the bound. -/
theorem toInt_cutOff {found : Option N} (h : Finds bound.toInt (distance a b) found)
    (hbound : bound.toInt < 2 ^ 31 - 1) :
    (cutOff bound found).toInt = min (distance a b : Int) (bound.toInt + 1) := by
  have hlow := bound.le_toInt
  have hbeyond := toInt_add_one hbound
  cases found with
  | none =>
    show (bound + 1).toInt = _
    rw [hbeyond]
    exact (min_eq_right (Int.add_one_le_of_lt h)).symm
  | some d =>
    have hd : value d = distance a b := h
    rw [cutOff, hd]
    split
    · rw [hbeyond] at *
      omega
    · rw [hbeyond] at *
      rw [Int32.toInt_ofNat_of_lt (by omega)]
      omega

/-- One more than the greatest bound is the least number of 32 bits, and no distance is less. -/
theorem toInt_cutOff_of_greatest (found : Option N) (hbound : bound.toInt = 2 ^ 31 - 1) :
    (cutOff bound found).toInt = -2 ^ 31 := by
  have hbeyond := toInt_add_one_of_greatest hbound
  cases found with
  | none => exact hbeyond
  | some d => rw [cutOff, if_pos (by omega), hbeyond]

/-- By natural numbers the computation always comes to an end. -/
theorem exists_bounded (a b : List α) (bound : Int32) : ∃ found : Option Nat,
    bounded a b bound = cutOff bound found ∧ Finds bound.toInt (distance a b) found := by
  obtain ⟨found, hfound, hfinds⟩ :=
    exists_bounded? (N := Nat) (a := a) (b := b) bound fun k _ ↦ has_nat k
  refine ⟨found, ?_, hfinds⟩
  rw [bounded, hfound]
  rfl

/-- **Within a bound the computation gives the distance, and beyond it one more than the bound.** -/
theorem toInt_bounded (a b : List α) (hbound : bound.toInt < 2 ^ 31 - 1) :
    (bounded a b bound).toInt = min (distance a b : Int) (bound.toInt + 1) := by
  obtain ⟨found, hfound, hfinds⟩ := exists_bounded a b bound
  rw [hfound, toInt_cutOff hfinds hbound]

/-- What kind of numbers the computation is made with does not matter as long as they last. -/
theorem bounded?_eq (hroom : ∀ k ≤ max a.length b.length + 1, Has N k)
    (hbound : bound.toInt < 2 ^ 31 - 1) : bounded? N a b bound = some (bounded a b bound) := by
  obtain ⟨found, hfound, hfinds⟩ := exists_bounded? bound hroom
  rw [hfound, Option.some.injEq, ← Int32.toInt_inj, toInt_cutOff hfinds hbound,
    toInt_bounded a b hbound]

/-- With the greatest bound there is the least number of 32 bits for every pair of texts. -/
theorem toInt_bounded_of_greatest (a b : List α) (hbound : bound.toInt = 2 ^ 31 - 1) :
    (bounded a b bound).toInt = -2 ^ 31 := by
  obtain ⟨found, hfound, -⟩ := exists_bounded a b bound
  rw [hfound, toInt_cutOff_of_greatest found hbound]

end Bounded

end Concordance.EditDistance
