import Concordance.Text.Utf8

/-!
# UTF-8 read back

Reading undoes writing (`decode_encode`), and a byte string that is read without a fault is the
writing of the characters read (`encode_decodeLossy`). So well-formed byte strings and lists of
characters are the same thing, and the number of bytes that begin a character is the number of
characters (`leadCount_eq`).

Both directions go character by character. The reader knows a character only as a first byte and
the bytes it waits for, so the middle section says what one first byte and one awaited byte do.
-/

namespace Concordance.Utf8

/-! ### One byte -/

/-- The reading of a first byte, with the byte as a number. -/
theorem begin_eq (b : UInt8) :
    begin b =
      if b.toNat < 0x80 then ([some (Char.ofNat b.toNat)], none)
      else if b.toNat < 0xC2 then ([none], none)
      else if b.toNat < 0xE0 then ([], some ⟨0, 0x80, 0xBF, b.toNat % 32⟩)
      else if b.toNat = 0xE0 then ([], some ⟨1, 0xA0, 0xBF, 0⟩)
      else if b.toNat = 0xED then ([], some ⟨1, 0x80, 0x9F, 13⟩)
      else if b.toNat < 0xF0 then ([], some ⟨1, 0x80, 0xBF, b.toNat % 16⟩)
      else if b.toNat = 0xF0 then ([], some ⟨2, 0x90, 0xBF, 0⟩)
      else if b.toNat < 0xF4 then ([], some ⟨2, 0x80, 0xBF, b.toNat % 8⟩)
      else if b.toNat = 0xF4 then ([], some ⟨2, 0x80, 0x8F, 4⟩)
      else ([none], none) := by
  simp only [begin, UInt8.lt_iff_toNat_lt, ← UInt8.toNat_inj, UInt8.reduceToNat]

/-- The first of two bytes. -/
theorem begin_two {b : UInt8} (h : 0xC2 ≤ b.toNat) (h' : b.toNat < 0xE0) :
    begin b = ([], some ⟨0, 0x80, 0xBF, b.toNat % 32⟩) := by
  rw [begin_eq, if_neg (by omega), if_neg (by omega), if_pos h']

/-- The first of three bytes. Overlong forms and surrogates are kept out by the second. -/
theorem begin_three {b : UInt8} {n : Nat} (h : b.toNat = n + 0xE0) (hn : n < 16) :
    begin b =
      ([], some ⟨1, if n = 0 then 0xA0 else 0x80, if n = 13 then 0x9F else 0xBF, n⟩) := by
  rw [begin_eq, if_neg (by omega), if_neg (by omega), if_neg (by omega), h]
  by_cases hzero : n = 0
  · simp [hzero]
  by_cases hsurrogate : n = 13
  · simp [hsurrogate]
  rw [if_neg (by omega), if_neg (by omega), if_pos (by omega), if_neg hzero, if_neg hsurrogate,
    show (n + 0xE0) % 16 = n by omega]

/-- The first of four bytes. Overlong forms and values above `U+10FFFF` are kept out by the
second. -/
theorem begin_four {b : UInt8} {n : Nat} (h : b.toNat = n + 0xF0) (hn : n < 5) :
    begin b =
      ([], some ⟨2, if n = 0 then 0x90 else 0x80, if n = 4 then 0x8F else 0xBF, n⟩) := by
  rw [begin_eq, if_neg (by omega), if_neg (by omega), if_neg (by omega), if_neg (by omega),
    if_neg (by omega), if_neg (by omega), h]
  by_cases hzero : n = 0
  · simp [hzero]
  by_cases hlast : n = 4
  · simp [hlast]
  rw [if_neg (by omega), if_pos (by omega), if_neg hzero, if_neg hlast,
    show (n + 0xF0) % 8 = n by omega]

/-- An awaited byte that completes a character. -/
theorem decodeFrom_last {low high : UInt8} {value : Nat} {b : UInt8} (s : Bytes)
    (h : low ≤ b ∧ b ≤ high) :
    decodeFrom (some ⟨0, low, high, value⟩) (b :: s) =
      some (Char.ofNat (value * 64 + b.toNat % 64)) :: decodeFrom none s := by
  simp [decodeFrom, step, h]

/-- An awaited byte after which more are awaited. -/
theorem decodeFrom_more {more : Nat} {low high : UInt8} {value : Nat} {b : UInt8} (s : Bytes)
    (h : low ≤ b ∧ b ≤ high) :
    decodeFrom (some ⟨more + 1, low, high, value⟩) (b :: s) =
      decodeFrom (some ⟨more, 0x80, 0xBF, value * 64 + b.toNat % 64⟩) s := by
  simp [decodeFrom, step, h]

/-- A text that is read without a fault holds the byte that is awaited. -/
theorem exists_of_pending {p : Pending} {s : Bytes}
    (h : (decodeFrom (some p) s).all Option.isSome = true) :
    ∃ b s', s = b :: s' ∧ p.low ≤ b ∧ b ≤ p.high := by
  cases s with
  | nil => simp [decodeFrom] at h
  | cons b s =>
    refine ⟨b, s, rfl, ?_⟩
    refine Decidable.byContradiction fun hb ↦ ?_
    simp [decodeFrom, step, hb] at h

/-! ### One character -/

/-- A number that is a character is its number. -/
theorem toNat_ofNat_of_isValidChar {n : Nat} (h : n.isValidChar) :
    (Char.ofNat n).val.toNat = n := by
  rw [Char.ofNat, dif_pos h]
  exact UInt32.toNat_ofNatLT (h := _)

theorem ofNat_eq_of_mod {n : Nat} {b : UInt8} (h : n % 256 = b.toNat) : UInt8.ofNat n = b :=
  UInt8.toNat_inj.1 (UInt8.toNat_ofNat'.trans h)

/-- A first byte after which something is awaited. -/
theorem decodeFrom_first {b : UInt8} {p : Pending} (s : Bytes) (h : begin b = ([], some p)) :
    decodeFrom none (b :: s) = decodeFrom (some p) s := by
  rw [decodeFrom, step, h]
  rfl

section TwoBytes

variable {b₀ b₁ : UInt8} (h₀ : 0xC2 ≤ b₀.toNat) (h₀' : b₀.toNat < 0xE0)
  (h₁ : 0x80 ≤ b₁.toNat) (h₁' : b₁.toNat ≤ 0xBF)

include h₀ h₀' h₁ h₁'

/-- The character that is read from two bytes. -/
theorem decodeFrom_two (s : Bytes) :
    decodeFrom none (b₀ :: b₁ :: s) =
      some (Char.ofNat (b₀.toNat % 32 * 64 + b₁.toNat % 64)) :: decodeFrom none s := by
  have hb₁ : (0x80 : UInt8) ≤ b₁ ∧ b₁ ≤ 0xBF := by
    simpa [UInt8.le_iff_toNat_le] using ⟨h₁, h₁'⟩
  rw [decodeFrom_first _ (begin_two h₀ h₀'), decodeFrom_last _ hb₁]

/-- And the bytes in which it is written. -/
theorem utf8EncodeChar_two :
    String.utf8EncodeChar (Char.ofNat (b₀.toNat % 32 * 64 + b₁.toNat % 64)) = [b₀, b₁] := by
  have hv : (b₀.toNat % 32 * 64 + b₁.toNat % 64).isValidChar := Or.inl (by omega)
  rw [String.utf8EncodeChar, toNat_ofNat_of_isValidChar hv, if_neg (by omega), if_pos (by omega)]
  simp only [List.cons.injEq, and_true]
  exact ⟨ofNat_eq_of_mod (by omega), ofNat_eq_of_mod (by omega)⟩

end TwoBytes

section ThreeBytes

variable {b₀ b₁ b₂ : UInt8} {n : Nat} (h₀ : b₀.toNat = n + 0xE0) (hn : n < 16)
  (h₁ : 0x80 ≤ b₁.toNat) (h₁' : b₁.toNat ≤ 0xBF) (h₂ : 0x80 ≤ b₂.toNat) (h₂' : b₂.toNat ≤ 0xBF)
  (hlow : n = 0 → 0xA0 ≤ b₁.toNat) (hhigh : n = 13 → b₁.toNat < 0xA0)

include h₀ hn h₁ h₁' h₂ h₂' hlow hhigh

/-- The character that is read from three bytes. -/
theorem decodeFrom_three (s : Bytes) :
    decodeFrom none (b₀ :: b₁ :: b₂ :: s) =
      some (Char.ofNat ((n * 64 + b₁.toNat % 64) * 64 + b₂.toNat % 64)) :: decodeFrom none s := by
  have hb₁ : (if n = 0 then 0xA0 else 0x80 : UInt8) ≤ b₁ ∧
      b₁ ≤ (if n = 13 then 0x9F else 0xBF : UInt8) := by
    simp only [UInt8.le_iff_toNat_le, apply_ite UInt8.toNat, UInt8.reduceToNat]
    constructor <;> split <;> omega
  have hb₂ : (0x80 : UInt8) ≤ b₂ ∧ b₂ ≤ 0xBF := by
    simpa [UInt8.le_iff_toNat_le] using ⟨h₂, h₂'⟩
  rw [decodeFrom_first _ (begin_three h₀ hn), decodeFrom_more _ hb₁, decodeFrom_last _ hb₂]

/-- And the bytes in which it is written. -/
theorem utf8EncodeChar_three :
    String.utf8EncodeChar (Char.ofNat ((n * 64 + b₁.toNat % 64) * 64 + b₂.toNat % 64)) =
      [b₀, b₁, b₂] := by
  have hv : ((n * 64 + b₁.toNat % 64) * 64 + b₂.toNat % 64).isValidChar := by
    rw [Nat.isValidChar]
    omega
  rw [String.utf8EncodeChar, toNat_ofNat_of_isValidChar hv, if_neg (by omega), if_neg (by omega),
    if_pos (by omega)]
  simp only [List.cons.injEq, and_true]
  exact ⟨ofNat_eq_of_mod (by omega), ofNat_eq_of_mod (by omega), ofNat_eq_of_mod (by omega)⟩

end ThreeBytes

section FourBytes

variable {b₀ b₁ b₂ b₃ : UInt8} {n : Nat} (h₀ : b₀.toNat = n + 0xF0) (hn : n < 5)
  (h₁ : 0x80 ≤ b₁.toNat) (h₁' : b₁.toNat ≤ 0xBF) (h₂ : 0x80 ≤ b₂.toNat) (h₂' : b₂.toNat ≤ 0xBF)
  (h₃ : 0x80 ≤ b₃.toNat) (h₃' : b₃.toNat ≤ 0xBF)
  (hlow : n = 0 → 0x90 ≤ b₁.toNat) (hhigh : n = 4 → b₁.toNat < 0x90)

include h₀ hn h₁ h₁' h₂ h₂' h₃ h₃' hlow hhigh

/-- The character that is read from four bytes. -/
theorem decodeFrom_four (s : Bytes) :
    decodeFrom none (b₀ :: b₁ :: b₂ :: b₃ :: s) =
      some (Char.ofNat (((n * 64 + b₁.toNat % 64) * 64 + b₂.toNat % 64) * 64 + b₃.toNat % 64)) ::
        decodeFrom none s := by
  have hb₁ : (if n = 0 then 0x90 else 0x80 : UInt8) ≤ b₁ ∧
      b₁ ≤ (if n = 4 then 0x8F else 0xBF : UInt8) := by
    simp only [UInt8.le_iff_toNat_le, apply_ite UInt8.toNat, UInt8.reduceToNat]
    constructor <;> split <;> omega
  have hb₂ : (0x80 : UInt8) ≤ b₂ ∧ b₂ ≤ 0xBF := by
    simpa [UInt8.le_iff_toNat_le] using ⟨h₂, h₂'⟩
  have hb₃ : (0x80 : UInt8) ≤ b₃ ∧ b₃ ≤ 0xBF := by
    simpa [UInt8.le_iff_toNat_le] using ⟨h₃, h₃'⟩
  rw [decodeFrom_first _ (begin_four h₀ hn), decodeFrom_more _ hb₁, decodeFrom_more _ hb₂,
    decodeFrom_last _ hb₃]

/-- And the bytes in which it is written. -/
theorem utf8EncodeChar_four :
    String.utf8EncodeChar
        (Char.ofNat (((n * 64 + b₁.toNat % 64) * 64 + b₂.toNat % 64) * 64 + b₃.toNat % 64)) =
      [b₀, b₁, b₂, b₃] := by
  have hv : (((n * 64 + b₁.toNat % 64) * 64 + b₂.toNat % 64) * 64 + b₃.toNat % 64).isValidChar := by
    rw [Nat.isValidChar]
    omega
  rw [String.utf8EncodeChar, toNat_ofNat_of_isValidChar hv, if_neg (by omega), if_neg (by omega),
    if_neg (by omega)]
  simp only [List.cons.injEq, and_true]
  exact ⟨ofNat_eq_of_mod (by omega), ofNat_eq_of_mod (by omega), ofNat_eq_of_mod (by omega),
    ofNat_eq_of_mod (by omega)⟩

end FourBytes

/-- A byte below 80 is a character. -/
theorem decodeFrom_ascii {b : UInt8} (h : b.toNat < 0x80) (s : Bytes) :
    decodeFrom none (b :: s) = some (Char.ofNat b.toNat) :: decodeFrom none s := by
  rw [decodeFrom, step, begin_eq, if_pos h]
  rfl

/-! ### There and back -/

/-- **A character that has been written is read.** -/
theorem decodeFrom_utf8EncodeChar (c : Char) (s : Bytes) :
    decodeFrom none (String.utf8EncodeChar c ++ s) = some c :: decodeFrom none s := by
  have hv : c.toNat < 0xD800 ∨ 0xDFFF < c.toNat ∧ c.toNat < 0x110000 := c.valid
  have hc : c.val.toNat = c.toNat := rfl
  have hself : ∀ n, n = c.toNat → Char.ofNat n = c := fun n hn ↦ hn ▸ Char.ofNat_toNat c
  have hbyte : ∀ n, n < 256 → (UInt8.ofNat n).toNat = n :=
    fun n hn ↦ UInt8.toNat_ofNat'.trans (Nat.mod_eq_of_lt hn)
  rw [String.utf8EncodeChar]
  simp only [hc]
  split
  · rw [List.singleton_append, decodeFrom_ascii, hself _ (hbyte _ (by omega))]
    rw [hbyte _ (by omega)]
    omega
  split
  · have h₀ := hbyte (c.toNat / 64 % 0x20 + 0xc0) (by omega)
    have h₁ := hbyte (c.toNat % 0x40 + 0x80) (by omega)
    rw [List.cons_append, List.singleton_append, decodeFrom_two, hself]
    all_goals omega
  split
  · have h₀ := hbyte (c.toNat / 4096 % 0x10 + 0xe0) (by omega)
    have h₁ := hbyte (c.toNat / 64 % 0x40 + 0x80) (by omega)
    have h₂ := hbyte (c.toNat % 0x40 + 0x80) (by omega)
    simp only [List.cons_append, List.nil_append]
    rw [decodeFrom_three (n := c.toNat / 4096), hself]
    all_goals omega
  · have h₀ := hbyte (c.toNat / 262144 % 0x08 + 0xf0) (by omega)
    have h₁ := hbyte (c.toNat / 4096 % 0x40 + 0x80) (by omega)
    have h₂ := hbyte (c.toNat / 64 % 0x40 + 0x80) (by omega)
    have h₃ := hbyte (c.toNat % 0x40 + 0x80) (by omega)
    simp only [List.cons_append, List.nil_append]
    rw [decodeFrom_four (n := c.toNat / 262144), hself]
    all_goals omega

/-- A character that has been written is read back. -/
theorem decodeLossy_utf8EncodeChar (c : Char) (s : Bytes) :
    decodeLossy (String.utf8EncodeChar c ++ s) = c :: decodeLossy s := by
  rw [decodeLossy, decode, decodeFrom_utf8EncodeChar]
  rfl

/-- **Reading undoes writing.** -/
theorem decode_encode (cs : List Char) : decode (encode cs) = cs.map some := by
  induction cs with
  | nil => rfl
  | cons c cs ih =>
    rw [encode, List.flatMap_cons, decode, decodeFrom_utf8EncodeChar, List.map_cons]
    exact congrArg _ ih

/-- The bytes begin with the writing of a character, and that is what is read of them. -/
def BeginsWithChar (s : Bytes) : Prop :=
  ∃ c s', s = String.utf8EncodeChar c ++ s' ∧ decodeFrom none s = some c :: decodeFrom none s'

section BeginsWithChar

variable {b : UInt8} {s : Bytes} {n : Nat}

/-- **Well-formed text begins with a whole character.** It has one byte if that is below 80. -/
theorem beginsWithChar_ascii (hb : b.toNat < 0x80) (s : Bytes) : BeginsWithChar (b :: s) := by
  refine ⟨Char.ofNat b.toNat, s, ?_, decodeFrom_ascii hb s⟩
  have hv : b.toNat.isValidChar := Or.inl (by omega)
  rw [String.utf8EncodeChar, toNat_ofNat_of_isValidChar hv, if_pos (by omega), UInt8.ofNat_toNat]
  rfl

/-- It has two bytes if the first is below E0. -/
theorem beginsWithChar_two (hb : 0xC2 ≤ b.toNat) (hb' : b.toNat < 0xE0)
    (h : (decodeFrom none (b :: s)).all Option.isSome = true) : BeginsWithChar (b :: s) := by
  rw [decodeFrom_first _ (begin_two hb hb')] at h
  obtain ⟨b₁, s, rfl, hb₁⟩ := exists_of_pending h
  simp only [UInt8.le_iff_toNat_le, UInt8.reduceToNat] at hb₁
  refine ⟨_, s, ?_, decodeFrom_two hb hb' hb₁.1 hb₁.2 s⟩
  rw [utf8EncodeChar_two hb hb' hb₁.1 hb₁.2]
  rfl

/-- It has three if the first is below F0. -/
theorem beginsWithChar_three (hb : b.toNat = n + 0xE0) (hn : n < 16)
    (h : (decodeFrom none (b :: s)).all Option.isSome = true) : BeginsWithChar (b :: s) := by
  rw [decodeFrom_first _ (begin_three hb hn)] at h
  obtain ⟨b₁, s, rfl, hb₁⟩ := exists_of_pending h
  rw [decodeFrom_more _ hb₁] at h
  obtain ⟨b₂, s, rfl, hb₂⟩ := exists_of_pending h
  -- the first awaited byte keeps out what is too long or a surrogate
  simp only [UInt8.le_iff_toNat_le, apply_ite UInt8.toNat, UInt8.reduceToNat] at hb₁ hb₂
  have h₁ : 0x80 ≤ b₁.toNat := by have := hb₁.1; split at this <;> omega
  have h₁' : b₁.toNat ≤ 0xBF := by have := hb₁.2; split at this <;> omega
  have hlow : n = 0 → 0xA0 ≤ b₁.toNat := fun hz ↦ by simpa [hz] using hb₁.1
  have hhigh : n = 13 → b₁.toNat < 0xA0 := fun hz ↦ by
    have := hb₁.2
    rw [if_pos hz] at this
    omega
  refine ⟨_, s, ?_, decodeFrom_three hb hn h₁ h₁' hb₂.1 hb₂.2 hlow hhigh s⟩
  rw [utf8EncodeChar_three hb hn h₁ h₁' hb₂.1 hb₂.2 hlow hhigh]
  rfl

/-- Otherwise it has four. -/
theorem beginsWithChar_four (hb : b.toNat = n + 0xF0) (hn : n < 5)
    (h : (decodeFrom none (b :: s)).all Option.isSome = true) : BeginsWithChar (b :: s) := by
  rw [decodeFrom_first _ (begin_four hb hn)] at h
  obtain ⟨b₁, s, rfl, hb₁⟩ := exists_of_pending h
  rw [decodeFrom_more _ hb₁] at h
  obtain ⟨b₂, s, rfl, hb₂⟩ := exists_of_pending h
  rw [decodeFrom_more _ hb₂] at h
  obtain ⟨b₃, s, rfl, hb₃⟩ := exists_of_pending h
  -- the first awaited byte keeps out what is too long or too large
  simp only [UInt8.le_iff_toNat_le, apply_ite UInt8.toNat, UInt8.reduceToNat] at hb₁ hb₂ hb₃
  have h₁ : 0x80 ≤ b₁.toNat := by have := hb₁.1; split at this <;> omega
  have h₁' : b₁.toNat ≤ 0xBF := by have := hb₁.2; split at this <;> omega
  have hlow : n = 0 → 0x90 ≤ b₁.toNat := fun hz ↦ by simpa [hz] using hb₁.1
  have hhigh : n = 4 → b₁.toNat < 0x90 := fun hz ↦ by
    have := hb₁.2
    rw [if_pos hz] at this
    omega
  refine ⟨_, s, ?_, decodeFrom_four hb hn h₁ h₁' hb₂.1 hb₂.2 hb₃.1 hb₃.2 hlow hhigh s⟩
  rw [utf8EncodeChar_four hb hn h₁ h₁' hb₂.1 hb₂.2 hb₃.1 hb₃.2 hlow hhigh]
  rfl

/-- No other byte begins a character. -/
theorem begin_fault (hb : 0x80 ≤ b.toNat ∧ b.toNat < 0xC2 ∨ 0xF5 ≤ b.toNat) :
    begin b = ([none], none) := by
  rw [begin_eq, if_neg (by omega)]
  rcases Nat.lt_or_ge b.toNat 0xC2 with hlow | hhigh
  · rw [if_pos hlow]
  · rw [if_neg (by omega), if_neg (by omega), if_neg (by omega), if_neg (by omega),
      if_neg (by omega), if_neg (by omega), if_neg (by omega), if_neg (by omega)]

/-- **A text that is read without a fault begins with the writing of a character.** -/
theorem beginsWithChar_of_decodeFrom (h : (decodeFrom none (b :: s)).all Option.isSome = true) :
    BeginsWithChar (b :: s) := by
  rcases Nat.lt_or_ge b.toNat 0x80 with hascii | hascii
  · exact beginsWithChar_ascii hascii s
  rcases Nat.lt_or_ge b.toNat 0xC2 with hlow | hlow
  · rw [decodeFrom, step, begin_fault (.inl ⟨hascii, hlow⟩)] at h
    simp at h
  rcases Nat.lt_or_ge b.toNat 0xE0 with htwo | htwo
  · exact beginsWithChar_two hlow htwo h
  rcases Nat.lt_or_ge b.toNat 0xF0 with hthree | hthree
  · exact beginsWithChar_three (n := b.toNat - 0xE0) (by omega) (by omega) h
  rcases Nat.lt_or_ge b.toNat 0xF5 with hfour | hfour
  · exact beginsWithChar_four (n := b.toNat - 0xF0) (by omega) (by omega) h
  · rw [decodeFrom, step, begin_fault (.inr hfour)] at h
    simp at h

end BeginsWithChar

/-- A text that is read without a fault is the writing of characters. -/
theorem exists_eq_encode {s : Bytes} (h : isValid s = true) : ∃ cs, s = encode cs := by
  induction hn : s.length using Nat.strongRecOn generalizing s with
  | ind n ih =>
    cases s with
    | nil => exact ⟨[], rfl⟩
    | cons b s =>
      obtain ⟨c, s', heq, hdecode⟩ := beginsWithChar_of_decodeFrom h
      have hvalid : isValid s' = true := by
        rw [isValid, decode, hdecode] at h
        simpa [isValid, decode] using h
      have hlt : s'.length < n := by
        have hlen := congrArg List.length heq
        have hpos : 0 < (String.utf8EncodeChar c).length :=
          List.length_pos_iff.2 String.utf8EncodeChar_ne_nil
        rw [hn, List.length_append] at hlen
        omega
      obtain ⟨cs, rfl⟩ := ih _ hlt hvalid rfl
      exact ⟨c :: cs, heq⟩

/-- Text that has been written is well-formed. -/
@[simp] theorem isValid_encode (cs : List Char) : isValid (encode cs) = true := by
  simp [isValid, decode_encode]

/-- It is read back. -/
@[simp] theorem decodeLossy_encode (cs : List Char) : decodeLossy (encode cs) = cs := by
  simp [decodeLossy, decode_encode, Function.comp_def]

/-- The writing of characters has bytes. -/
theorem encode_ne_nil {cs : List Char} (hne : cs ≠ []) : encode cs ≠ [] := by
  obtain ⟨c, rest, rfl⟩ := List.exists_cons_of_ne_nil hne
  rw [encode, List.flatMap_cons]
  exact List.append_ne_nil_of_left_ne_nil String.utf8EncodeChar_ne_nil _

/-- **A well-formed byte string is the writing of the characters read from it.** -/
theorem encode_decodeLossy {s : Bytes} (h : isValid s = true) : encode (decodeLossy s) = s := by
  obtain ⟨cs, rfl⟩ := exists_eq_encode h
  rw [decodeLossy_encode]

/-- So well-formed byte strings with the same characters are equal. -/
theorem eq_of_decodeLossy_eq {s t : Bytes} (hs : isValid s = true) (ht : isValid t = true)
    (h : decodeLossy s = decodeLossy t) : s = t := by
  rw [← encode_decodeLossy hs, h, encode_decodeLossy ht]

/-- One byte of a written character begins it. -/
theorem leadCount_utf8EncodeChar (c : Char) : leadCount (String.utf8EncodeChar c) = 1 := by
  have hbyte : ∀ n, n < 256 → (UInt8.ofNat n).toNat = n :=
    fun n hn ↦ UInt8.toNat_ofNat'.trans (Nat.mod_eq_of_lt hn)
  have hlead : ∀ n, n < 256 → n < 0x80 ∨ 0xC0 ≤ n →
      (decide (UInt8.ofNat n < 0x80) || decide (0xC0 ≤ UInt8.ofNat n)) = true := by
    intro n hn h
    simpa [UInt8.lt_iff_toNat_lt, UInt8.le_iff_toNat_le, hbyte n hn] using h
  have htail : ∀ n, n < 64 →
      (decide (UInt8.ofNat (n + 0x80) < 0x80) ||
        decide (0xC0 ≤ UInt8.ofNat (n + 0x80))) = false := by
    intro n hn
    simp only [UInt8.lt_iff_toNat_lt, UInt8.le_iff_toNat_le, hbyte (n + 0x80) (by omega),
      UInt8.reduceToNat, Bool.or_eq_false_iff, decide_eq_false_iff_not]
    omega
  have hc : c.val.toNat < 0x110000 := by
    have := c.valid
    omega
  simp only [leadCount, String.utf8EncodeChar]
  split
  · rw [List.countP_cons, hlead _ (by omega) (by omega)]
    rfl
  split
  · rw [List.countP_cons, List.countP_cons, hlead (c.val.toNat / 64 % 0x20 + 0xc0) (by omega)
      (by omega), htail (c.val.toNat % 0x40) (by omega)]
    rfl
  split
  · rw [List.countP_cons, List.countP_cons, List.countP_cons,
      hlead (c.val.toNat / 4096 % 0x10 + 0xe0) (by omega) (by omega),
      htail (c.val.toNat / 64 % 0x40) (by omega), htail (c.val.toNat % 0x40) (by omega)]
    rfl
  · rw [List.countP_cons, List.countP_cons, List.countP_cons, List.countP_cons,
      hlead (c.val.toNat / 262144 % 0x08 + 0xf0) (by omega) (by omega),
      htail (c.val.toNat / 4096 % 0x40) (by omega), htail (c.val.toNat / 64 % 0x40) (by omega),
      htail (c.val.toNat % 0x40) (by omega)]
    rfl

/-- **In a well-formed byte string as many bytes begin a character as it has characters.** -/
theorem leadCount_eq {s : Bytes} (h : isValid s = true) :
    leadCount s = (decodeLossy s).length := by
  obtain ⟨cs, rfl⟩ := exists_eq_encode h
  rw [decodeLossy_encode]
  induction cs with
  | nil => rfl
  | cons c cs ih =>
    have happend : leadCount (encode (c :: cs)) =
        leadCount (String.utf8EncodeChar c) + leadCount (encode cs) := List.countP_append
    rw [happend, leadCount_utf8EncodeChar, ih (isValid_encode cs), List.length_cons]
    omega

/-- Bytes below `80` are characters by themselves. -/
theorem decode_of_ascii {s : Bytes} (h : ∀ b ∈ s, b.toNat < 0x80) :
    decode s = s.map fun b ↦ some (Char.ofNat b.toNat) := by
  induction s with
  | nil => rfl
  | cons b s ih =>
    obtain ⟨hb, hs⟩ := List.forall_mem_cons.1 h
    rw [decode, decodeFrom_ascii hb, List.map_cons, ← ih hs]
    rfl

/-- Text of bytes below 80 is well-formed. -/
theorem isValid_of_ascii {s : Bytes} (h : ∀ b ∈ s, b.toNat < 0x80) : isValid s = true := by
  rw [isValid, decode_of_ascii h, List.all_map]
  exact List.all_eq_true.2 fun _ _ ↦ rfl

/-- Its characters are its bytes. -/
theorem decodeLossy_of_ascii {s : Bytes} (h : ∀ b ∈ s, b.toNat < 0x80) :
    decodeLossy s = s.map fun b ↦ Char.ofNat b.toNat := by
  rw [decodeLossy, decode_of_ascii h, List.map_map]
  rfl

/-! ### Lengths -/

/-- The UTF-8 form of some of the characters is not longer. -/
theorem length_encode_le {s t : List Char} (h : t.Sublist s) :
    (encode t).length ≤ (encode s).length := by
  induction h with
  | slnil => exact Nat.le_refl _
  | cons c _ ih =>
    rw [encode, encode, List.flatMap_cons, List.length_append]
    exact Nat.le_add_left_of_le ih
  | cons_cons c _ ih =>
    rw [encode, encode, List.flatMap_cons, List.flatMap_cons, List.length_append,
      List.length_append]
    exact Nat.add_le_add_left ih _

/-- A byte at which no character is pending completes one or leaves one pending. -/
theorem length_begin (b : UInt8) :
    (begin b).1.length = 1 ∧ (begin b).2.isSome = false ∨
      (begin b).1.length = 0 ∧ (begin b).2.isSome = true := by
  rw [begin]
  repeat' split
  all_goals first | exact .inl ⟨rfl, rfl⟩ | exact .inr ⟨rfl, rfl⟩

/-- A byte completes no more characters than itself and the one that is pending. -/
theorem length_step_le (pending : Option Pending) (b : UInt8) :
    (step pending b).1.length + (step pending b).2.isSome.toNat ≤ 1 + pending.isSome.toNat := by
  have hbegin : (begin b).1.length + (begin b).2.isSome.toNat = 1 := by
    rcases length_begin b with ⟨hlength, hpending⟩ | ⟨hlength, hpending⟩ <;>
      rw [hlength, hpending] <;> rfl
  cases pending with
  | none => exact Nat.le_of_eq hbegin
  | some p =>
    rw [step]
    split
    · dsimp only
      split <;> simp
    · show (begin b).1.length + 1 + (begin b).2.isSome.toNat ≤ 1 + 1
      omega

/-- There are no more characters and faults than bytes, save for one that was pending. -/
theorem length_decodeFrom_le (pending : Option Pending) (s : Bytes) :
    (decodeFrom pending s).length ≤ s.length + pending.isSome.toNat := by
  induction s generalizing pending with
  | nil =>
    rw [decodeFrom]
    split <;> simp_all
  | cons b s ih =>
    have hrest := ih (step pending b).2
    have hstep := length_step_le pending b
    rw [decodeFrom, List.length_append, List.length_cons]
    omega

/-- **A text has no more characters than bytes**, well-formed or not. -/
theorem length_decodeLossy_le (s : Bytes) : (decodeLossy s).length ≤ s.length := by
  rw [decodeLossy, List.length_map]
  exact length_decodeFrom_le none s

end Concordance.Utf8
