/-!
# Lower case

The lower case of a character, without regard to a language. It is one character, except that the
capital I with a dot above becomes a small i followed by the dot. The table covers the Latin,
Cyrillic and Deseret letters; every other character is its own lower case.
-/

namespace Concordance

/-- Alphabets in which capital and small letters alternate, the capital first: the first capital
and the last small letter of each. -/
def alternatingCase : List (Nat × Nat) :=
  [(0x100, 0x12F), (0x132, 0x137), (0x139, 0x148), (0x14A, 0x177), (0x179, 0x17E),
   (0x460, 0x481), (0x48A, 0x4BF), (0x4C1, 0x4CE), (0x4D0, 0x4FF)]

/-- Alphabets in which the small letters follow as a block: the first and the last capital, and the
distance to the small letters. -/
def blockCase : List (Nat × Nat × Nat) :=
  [(0x41, 0x5A, 32), (0xC0, 0xD6, 32), (0xD8, 0xDE, 32), (0x400, 0x40F, 80), (0x410, 0x42F, 32),
   (0x10400, 0x10427, 40)]

/-- Capitals whose small letter stands elsewhere. -/
def singleCase : List (Nat × Nat) :=
  [(0x178, 0xFF), (0x4C0, 0x4CF), (0x1E9E, 0xDF), (0x212A, 0x6B), (0x212B, 0xE5)]

/-- The code point of the small letter that belongs to a code point. -/
def smallLetter (n : Nat) : Nat :=
  match blockCase.find? fun r ↦ r.1 ≤ n && n ≤ r.2.1 with
  | some r => n + r.2.2
  | none =>
    match alternatingCase.find? fun r ↦ r.1 ≤ n && n ≤ r.2 with
    | some r => if (n - r.1) % 2 = 0 then n + 1 else n
    | none =>
      match singleCase.find? fun r ↦ r.1 == n with
      | some r => r.2
      | none => n

/-- The lower case of a character. -/
def lowerCase (c : Char) : List Char :=
  if c = '\u0130' then ['i', '\u0307'] else [Char.ofNat (smallLetter c.toNat)]

end Concordance
