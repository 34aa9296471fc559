import Concordance.Proofs.EditDistance
import Mathlib.Order.Bounds.Basic

/-!
# Edits

`distance` is a recursion and `Alignment` looks at two texts at once; neither speaks of changing a
text. Here a text is changed, one character at a time: `Edit` is one insertion, deletion or
replacement anywhere, and `Edits` counts how many are made. The distance is the least number that
leads from one text to the other (`isLeast_distance`), so what is computed within a bound is that
number, or one more than the bound, as long as there are numbers to compute with
(`bounded?_isLeast_iff`).

An alignment is a sequence of edits, one for each column that costs something (`Alignment.edits`).
The other direction needs that alignments can be composed (`Alignment.trans`): an edit may touch a
character that an earlier one has put there, and together they cost no more than both alone.
-/

namespace Concordance.EditDistance

variable {α : Type}

/-- One character is inserted, deleted or replaced: the first one or one that comes later. -/
inductive Edit : List α → List α → Prop where
  | insert (c : α) (a : List α) : Edit a (c :: a)
  | delete (c : α) (a : List α) : Edit (c :: a) a
  | replace (c d : α) (a : List α) : Edit (c :: a) (d :: a)
  | later (c : α) {a b : List α} : Edit a b → Edit (c :: a) (c :: b)

/-- The number of edits, made one after the other, that turn one text into the other. -/
inductive Edits : List α → List α → Nat → Prop where
  | none (a : List α) : Edits a a 0
  | more {a b c : List α} {n : Nat} : Edits a b n → Edit b c → Edits a c (n + 1)

/-! ### From alignments to edits -/

/-- What can be done to a text can be done behind one more character. -/
theorem Edits.later {a b : List α} {n : Nat} (h : Edits a b n) (c : α) :
    Edits (c :: a) (c :: b) n := by
  induction h with
  | none => exact .none _
  | more _ hedit ih => exact ih.more (.later c hedit)

/-- **An alignment is as many edits as it costs.** -/
theorem Alignment.edits {a b : List α} {n : Nat} (h : Alignment a b n) : Edits a b n := by
  induction h with
  | nil => exact .none _
  | @keep c a b n _ ih => exact ih.later c
  | @replace c d a b n _ ih => exact (ih.later c).more (.replace c d b)
  | @delete c a b n _ ih => exact (ih.later c).more (.delete c b)
  | @insert d a b n _ ih => exact ih.more (.insert d b)

/-! ### From edits to alignments -/

/-- One edit is an alignment with one column that costs something. -/
theorem Edit.alignment {a b : List α} (h : Edit a b) : Alignment a b 1 := by
  induction h with
  | insert c a => exact (Alignment.refl a).insert
  | delete c a => exact (Alignment.refl a).delete
  | replace c d a => exact (Alignment.refl a).replace
  | later c _ ih => exact ih.keep

/-- **Alignments can be composed.** The recursion takes off the first column of one of them, or of
both where they meet in a character of the text between. -/
theorem Alignment.trans : ∀ {a b c : List α} {m n : Nat}, Alignment a b m → Alignment b c n →
    ∃ k ≤ m + n, Alignment a c k
  | _, _, _, _, _, .nil, h' => ⟨_, by omega, h'⟩
  | _, _, _, _, _, .delete h, h' =>
    have ⟨k, hk, hac⟩ := trans h h'
    ⟨k + 1, by omega, hac.delete⟩
  | _, _, _, _, _, h, .insert h' =>
    have ⟨k, hk, hac⟩ := trans h h'
    ⟨k + 1, by omega, hac.insert⟩
  | _, _, _, _, _, .keep h, .keep h' =>
    have ⟨k, hk, hac⟩ := trans h h'
    ⟨k, hk, hac.keep⟩
  | _, _, _, _, _, .keep h, .replace h'
  | _, _, _, _, _, .replace h, .keep h'
  | _, _, _, _, _, .replace h, .replace h' =>
    have ⟨k, hk, hac⟩ := trans h h'
    ⟨k + 1, by omega, hac.replace⟩
  | _, _, _, _, _, .keep h, .delete h'
  | _, _, _, _, _, .replace h, .delete h' =>
    have ⟨k, hk, hac⟩ := trans h h'
    ⟨k + 1, by omega, hac.delete⟩
  | _, _, _, _, _, .insert h, .keep h'
  | _, _, _, _, _, .insert h, .replace h' =>
    have ⟨k, hk, hac⟩ := trans h h'
    ⟨k + 1, by omega, hac.insert⟩
  -- what has been inserted is deleted again
  | _, _, _, _, _, .insert h, .delete h' =>
    have ⟨k, hk, hac⟩ := trans h h'
    ⟨k, by omega, hac⟩
termination_by a b c => a.length + b.length + c.length

/-- Edits are an alignment that costs no more. -/
theorem Edits.exists_alignment {a b : List α} {n : Nat} (h : Edits a b n) :
    ∃ k ≤ n, Alignment a b k := by
  induction h with
  | none => exact ⟨0, Nat.le_refl 0, .refl _⟩
  | more _ hedit ih =>
    obtain ⟨k, hk, hab⟩ := ih
    obtain ⟨l, hl, hac⟩ := hab.trans hedit.alignment
    exact ⟨l, by omega, hac⟩

/-! ### The least number of edits -/

variable [DecidableEq α]

/-- **The distance is the least number of edits** that turn one text into the other. -/
theorem isLeast_distance (a b : List α) : IsLeast {n | Edits a b n} (distance a b) := by
  refine ⟨(alignment_distance a b).edits, fun n hn ↦ ?_⟩
  obtain ⟨k, hk, hab⟩ := Edits.exists_alignment hn
  exact hab.distance_le.trans hk

/-- **The distance within a bound is the least number of edits**, cut off at one more than the
bound, whatever the bound is: below zero it is always cut off. It is computed with signed words
of 32 bits as long as these last for one more than the lengths of the texts, and not with longer
texts. -/
theorem bounded?_isLeast_iff (n : Nat) :
    (∀ a b : List Char, a.length ≤ n → b.length ≤ n → ∀ bound : Int32, bound.toInt < 2 ^ 31 - 1 →
      IsLeast {k | Edits a b k} (distance a b) ∧ ∃ d, bounded? Int32 a b bound = some d ∧
        d.toInt = min (distance a b : Int) (bound.toInt + 1)) ↔ n < 2 ^ 31 - 1 := by
  constructor
  · intro h
    by_contra hn
    -- a row for so long a text has no number of cells
    let text := List.replicate (2 ^ 31 - 1) 'a'
    have hlength : text.length = 2 ^ 31 - 1 := List.length_replicate
    obtain ⟨-, d, hd, -⟩ := h text text (by omega) (by omega) 0 (by decide)
    rw [bounded?_eq_none] at hd
    · cases hd
    · rw [Int.sub_self]
      decide
    · rw [Counter.has_int32_iff]
      omega
  · intro hn a b ha hb bound hbound
    obtain ⟨found, hfound, hfinds⟩ := exists_bounded? (N := Int32) (a := a) (b := b) bound
      fun k hk ↦ Counter.has_int32_iff.2 (by omega)
    exact ⟨isLeast_distance a b, _, hfound, toInt_cutOff hfinds hbound⟩

/-- A character deleted in front and one inserted at the end, within a bound and beyond one. -/
example : bounded? Int32 "flaw".toList "lawn".toList 3 = some 2 ∧
    bounded? Int32 "flaw".toList "lawn".toList (-5) = some (-4) := by
  decide

end Concordance.EditDistance
