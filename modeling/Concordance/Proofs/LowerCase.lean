import Concordance.Proofs.Utf8
import Concordance.Text.LowerCase

/-!
# Lower case is final

A small letter is its own lower case, so bringing a text into lower case twice is the same as doing
it once (`lowerCase_of_mem`). This is a matter of the tables: where they send a capital they list no
capital. For ranges of capitals that takes only that ranges are apart, and there are few enough of
them to go through all pairs.
-/

namespace Concordance

/-- The code point is that of no capital: none of the tables lists it as one, and it is not the
capital I with a dot. -/
structure IsSmall (n : Nat) : Prop where
  block : ∀ r ∈ blockCase, r.1 ≤ n → r.2.1 < n
  alternating : ∀ r ∈ alternatingCase, r.1 ≤ n → n ≤ r.2 → (n - r.1) % 2 = 1
  single : ∀ r ∈ singleCase, r.1 ≠ n
  undotted : n ≠ 0x130

instance (n : Nat) : Decidable (IsSmall n) :=
  decidable_of_iff ((∀ r ∈ blockCase, r.1 ≤ n → r.2.1 < n) ∧
    (∀ r ∈ alternatingCase, r.1 ≤ n → n ≤ r.2 → (n - r.1) % 2 = 1) ∧
    (∀ r ∈ singleCase, r.1 ≠ n) ∧ n ≠ 0x130)
    ⟨fun h ↦ ⟨h.1, h.2.1, h.2.2.1, h.2.2.2⟩, fun h ↦ ⟨h.block, h.alternating, h.single, h.undotted⟩⟩

variable {n : Nat}

/-! ### The tables -/

/-- Two ranges have no number in common. -/
def AreApart (low high low' high' : Nat) : Prop :=
  high < low' ∨ high' < low

instance (low high low' high' : Nat) : Decidable (AreApart low high low' high') :=
  inferInstanceAs (Decidable (_ ∨ _))

/-- The small letters of a block are no capitals. -/
theorem isSmall_of_mem_blockCase {r : Nat × Nat × Nat} (hr : r ∈ blockCase) (hlow : r.1 ≤ n)
    (hhigh : n ≤ r.2.1) : IsSmall (n + r.2.2) := by
  have hblock : ∀ r ∈ blockCase, ∀ r' ∈ blockCase,
      AreApart (r.1 + r.2.2) (r.2.1 + r.2.2) r'.1 r'.2.1 := by decide
  have halternating : ∀ r ∈ blockCase, ∀ r' ∈ alternatingCase,
      AreApart (r.1 + r.2.2) (r.2.1 + r.2.2) r'.1 r'.2 := by decide
  have hsingle : ∀ r ∈ blockCase, ∀ r' ∈ singleCase,
      AreApart (r.1 + r.2.2) (r.2.1 + r.2.2) r'.1 r'.1 := by decide
  have hdotted : ∀ r ∈ blockCase, AreApart (r.1 + r.2.2) (r.2.1 + r.2.2) 0x130 0x130 := by decide
  refine ⟨fun r' hr' hle ↦ ?_, fun r' hr' hle hle' ↦ ?_, fun r' hr' heq ↦ ?_, fun heq ↦ ?_⟩
  · rcases hblock r hr r' hr' with hapart | hapart <;> omega
  · rcases halternating r hr r' hr' with hapart | hapart <;> omega
  · rcases hsingle r hr r' hr' with hapart | hapart <;> omega
  · rcases hdotted r hr with hapart | hapart <;> omega

/-- In an alphabet in which they alternate, the letters at odd places are no capitals. -/
theorem isSmall_of_mem_alternatingCase {r : Nat × Nat} (hr : r ∈ alternatingCase) (hlow : r.1 ≤ n)
    (hhigh : n ≤ r.2) (hodd : (n - r.1) % 2 = 1) : IsSmall n := by
  have hblock : ∀ r ∈ alternatingCase, ∀ r' ∈ blockCase, AreApart r.1 r.2 r'.1 r'.2.1 := by decide
  have halternating : ∀ r ∈ alternatingCase, ∀ r' ∈ alternatingCase,
      r = r' ∨ AreApart r.1 r.2 r'.1 r'.2 := by decide
  have hsingle : ∀ r ∈ alternatingCase, ∀ r' ∈ singleCase, AreApart r.1 r.2 r'.1 r'.1 := by decide
  have hdotted : ∀ r ∈ alternatingCase, AreApart r.1 r.2 0x130 0x130 := by decide
  refine ⟨fun r' hr' hle ↦ ?_, fun r' hr' hle hle' ↦ ?_, fun r' hr' heq ↦ ?_, fun heq ↦ ?_⟩
  · rcases hblock r hr r' hr' with hapart | hapart <;> omega
  · rcases halternating r hr r' hr' with rfl | hapart | hapart
    · exact hodd
    all_goals omega
  · rcases hsingle r hr r' hr' with hapart | hapart <;> omega
  · rcases hdotted r hr with hapart | hapart <;> omega

/-! ### Small letters -/

/-- A row of a table in which a number is found. -/
theorem mem_of_find?_range {α : Type} {l : List α} {low high : α → Nat} {r : α}
    (h : l.find? (fun r ↦ low r ≤ n && n ≤ high r) = some r) : r ∈ l ∧ low r ≤ n ∧ n ≤ high r := by
  have hin := List.find?_some h
  rw [Bool.and_eq_true, decide_eq_true_iff, decide_eq_true_iff] at hin
  exact ⟨List.mem_of_find?_eq_some h, hin⟩

/-- **The small letter of a letter is no capital.** -/
theorem isSmall_smallLetter (hn : n ≠ 0x130) : IsSmall (smallLetter n) := by
  have hsingle : ∀ r ∈ singleCase, IsSmall r.2 := by decide
  have heven : ∀ r ∈ alternatingCase, (r.2 - r.1) % 2 = 1 := by decide
  rw [smallLetter]
  split
  · rename_i r hfind
    obtain ⟨hr, hlow, hhigh⟩ := mem_of_find?_range hfind
    exact isSmall_of_mem_blockCase hr hlow hhigh
  rename_i hblock
  split
  · rename_i r hfind
    obtain ⟨hr, hlow, hhigh⟩ := mem_of_find?_range hfind
    have hlast := heven r hr
    split
    · exact isSmall_of_mem_alternatingCase hr (by omega) (by omega) (by omega)
    · exact isSmall_of_mem_alternatingCase hr hlow hhigh (by omega)
  rename_i halternating
  split
  · rename_i r hfind
    exact hsingle r (List.mem_of_find?_eq_some hfind)
  · -- no table lists it
    rename_i hnone
    simp only [List.find?_eq_none, Bool.and_eq_true, decide_eq_true_eq, not_and, beq_iff_eq,
      Nat.not_le] at hblock halternating hnone
    exact ⟨hblock, fun r hr hlow hhigh ↦ absurd (halternating r hr hlow) (by omega), hnone, hn⟩

/-- **What is no capital is left alone.** -/
theorem smallLetter_of_isSmall (h : IsSmall n) : smallLetter n = n := by
  rw [smallLetter]
  split
  · rename_i r hfind
    obtain ⟨hr, hlow, hhigh⟩ := mem_of_find?_range hfind
    have hlt := h.block r hr hlow
    omega
  split
  · rename_i r hfind
    obtain ⟨hr, hlow, hhigh⟩ := mem_of_find?_range hfind
    have hodd := h.alternating r hr hlow hhigh
    rw [if_neg (by omega)]
  split
  · rename_i r hfind
    have heq := List.find?_some hfind
    exact absurd (beq_iff_eq.1 heq) (h.single r (List.mem_of_find?_eq_some hfind))
  · rfl

/-! ### Characters -/

/-- The characters of a lower case are no capitals. -/
theorem isSmall_of_mem_lowerCase {c d : Char} (h : d ∈ lowerCase c) : IsSmall d.toNat := by
  rw [lowerCase] at h
  split at h
  · rcases List.mem_cons.1 h with rfl | h
    · decide
    · rw [List.mem_singleton.1 h]
      decide
  · rename_i hc
    have hdotted : c.toNat ≠ 0x130 := fun heq ↦ hc (by rw [← Char.ofNat_toNat c, heq])
    rw [List.mem_singleton.1 h]
    by_cases hvalid : (smallLetter c.toNat).isValidChar
    · have hself : (Char.ofNat (smallLetter c.toNat)).toNat = smallLetter c.toNat :=
        Utf8.toNat_ofNat_of_isValidChar hvalid
      rw [hself]
      exact isSmall_smallLetter hdotted
    · -- there is no such character, and what stands for it is none of the letters
      rw [Char.ofNat, dif_neg hvalid]
      decide

/-- **A lower case is its own lower case.** -/
theorem lowerCase_of_mem {c d : Char} (h : d ∈ lowerCase c) : lowerCase d = [d] := by
  have hsmall := isSmall_of_mem_lowerCase h
  rw [lowerCase, if_neg fun hd ↦ hsmall.undotted (by rw [hd]; rfl), smallLetter_of_isSmall hsmall,
    Char.ofNat_toNat]

/-- So is a string whose characters are. -/
theorem flatMap_lowerCase {s : List Char} (h : ∀ c ∈ s, lowerCase c = [c]) :
    s.flatMap lowerCase = s := by
  induction s with
  | nil => rfl
  | cons c s ih =>
    obtain ⟨hc, hs⟩ := List.forall_mem_cons.1 h
    rw [List.flatMap_cons, hc, ih hs, List.singleton_append]

end Concordance
