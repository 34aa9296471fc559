import Concordance.Bytes
import Concordance.Counter

/-!
# Reading UTF-8

Text arrives as bytes. `decode` reads it strictly: overlong forms, surrogates and values above
`U+10FFFF` are refused, and each maximal ill-formed piece counts as one fault, after which reading
goes on. So a fault is local, and `decodeLossy` can put one replacement character in its place.

The reader takes one byte at a time. Between two bytes it remembers only the character it is in,
if any: how many bytes are missing, in which range the next one must lie, and the value so far.
-/

namespace Concordance.Utf8

/-- A character that has begun and is not complete. -/
structure Pending where
  /-- How many bytes are missing after the next one. -/
  more : Nat
  /-- The least byte that may come next. -/
  low : UInt8
  /-- The greatest byte that may come next. -/
  high : UInt8
  /-- The value of the bits read so far. -/
  value : Nat
  deriving DecidableEq, Repr

/-- What one byte leads to: the characters and faults it completes, and what is then pending. -/
abbrev Step := List (Option Char) × Option Pending

/-- A byte at which no character is pending. The narrowed ranges after `E0`, `ED`, `F0` and `F4`
keep out overlong forms, surrogates and values above `U+10FFFF`. -/
def begin (b : UInt8) : Step :=
  if b < 0x80 then ([some (Char.ofNat b.toNat)], none)
  else if b < 0xC2 then ([none], none)
  else if b < 0xE0 then ([], some ⟨0, 0x80, 0xBF, b.toNat % 32⟩)
  else if b = 0xE0 then ([], some ⟨1, 0xA0, 0xBF, 0⟩)
  else if b = 0xED then ([], some ⟨1, 0x80, 0x9F, 13⟩)
  else if b < 0xF0 then ([], some ⟨1, 0x80, 0xBF, b.toNat % 16⟩)
  else if b = 0xF0 then ([], some ⟨2, 0x90, 0xBF, 0⟩)
  else if b < 0xF4 then ([], some ⟨2, 0x80, 0xBF, b.toNat % 8⟩)
  else if b = 0xF4 then ([], some ⟨2, 0x80, 0x8F, 4⟩)
  else ([none], none)

/-- A byte at which a character may be pending. One that cannot continue it is a fault of that
character and is then read afresh. -/
def step (pending : Option Pending) (b : UInt8) : Step :=
  match pending with
  | none => begin b
  | some p =>
    if p.low ≤ b ∧ b ≤ p.high then
      let value := p.value * 64 + b.toNat % 64
      match p.more with
      | 0 => ([some (Char.ofNat value)], none)
      | more + 1 => ([], some ⟨more, 0x80, 0xBF, value⟩)
    else
      (none :: (begin b).1, (begin b).2)

/-- Reading on while a character may be pending. -/
def decodeFrom (pending : Option Pending) : Bytes → List (Option Char)
  | [] => if pending.isSome then [none] else []
  | b :: s => (step pending b).1 ++ decodeFrom (step pending b).2 s

/-- The characters of a byte string, with `none` for each maximal ill-formed piece. -/
def decode (s : Bytes) : List (Option Char) :=
  decodeFrom none s

/-- Whether a byte string is well-formed UTF-8. -/
def isValid (s : Bytes) : Bool :=
  (decode s).all Option.isSome

/-- Whether a text is taken for well-formed. Only what its length in 32 bits reaches is looked at,
so of a text of `2 ^ 31` bytes or more this says nothing. -/
def passes (text : Bytes) : Bool :=
  isValid (reached text)

/-- The characters of a byte string, with the replacement character in the place of each
ill-formed piece. -/
def decodeLossy (s : Bytes) : List Char :=
  (decode s).map fun c ↦ c.getD '\uFFFD'

/-- How many bytes of a byte string begin a character: the length in characters of well-formed
text, found without reading the characters. -/
def leadCount (s : Bytes) : Nat :=
  s.countP fun b ↦ b < 0x80 || 0xC0 ≤ b

end Concordance.Utf8
