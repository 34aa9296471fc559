/-!
# Classes of characters for word breaking

Word breaking looks at a character only through its class. The table covers the Latin, Cyrillic
and Deseret letters, the European and Arabic-Indic digits, and the marks, joiners and separators
that occur among them; a character outside the table is of class `other`.
-/

namespace Concordance

/-- What word breaking needs to know of a character. -/
inductive WordClass where
  /-- A letter. -/
  | letter
  /-- A decimal digit. -/
  | digit
  /-- A combining mark, kept in a term. -/
  | mark
  /-- A format character or modifier that attaches like a mark but is dropped from a term. -/
  | format
  /-- The zero width joiner. -/
  | joiner
  /-- A sign that may stand between two letters. -/
  | midLetter
  /-- A sign that may stand between two letters or between two digits. -/
  | midBoth
  /-- A sign that may stand between two digits. -/
  | midDigit
  /-- A sign that joins words into one, such as the low line. -/
  | connector
  | carriageReturn
  | lineFeed
  /-- Another line or paragraph separator. -/
  | newline
  /-- A blank. -/
  | space
  /-- Half of a flag. -/
  | regional
  /-- A pictograph. -/
  | pictograph
  | other
  deriving DecidableEq, Repr

namespace WordClass

/-- The classes that end a line. -/
def endsLine : WordClass → Bool
  | carriageReturn | lineFeed | newline => true
  | _ => false

/-- The classes that attach to the character before them and are then looked through. -/
def attaches : WordClass → Bool
  | mark | format | joiner => true
  | _ => false

/-- Letters and digits. -/
def isAlphanumeric : WordClass → Bool
  | letter | digit => true
  | _ => false

end WordClass

/-- A table of character classes: ranges of code points, both ends included. -/
abbrev CharRanges := List (Nat × Nat)

/-- Whether a code point lies in one of the ranges. -/
def CharRanges.holds (ranges : CharRanges) (n : Nat) : Bool :=
  ranges.any fun r ↦ r.1 ≤ n && n ≤ r.2

namespace WordClass

def letters : CharRanges :=
  [(0x41, 0x5A), (0x61, 0x7A), (0xAA, 0xAA), (0xB5, 0xB5), (0xBA, 0xBA), (0xC0, 0xD6),
   (0xD8, 0xF6), (0xF8, 0x17F), (0x400, 0x481), (0x48A, 0x4FF), (0x1E9E, 0x1E9E),
   (0x212A, 0x212B), (0x10400, 0x1044F)]

def digits : CharRanges :=
  [(0x30, 0x39), (0x660, 0x669)]

def marks : CharRanges :=
  [(0x300, 0x36F), (0x483, 0x489), (0x20D0, 0x20F0), (0xFE00, 0xFE0F)]

def formats : CharRanges :=
  [(0xAD, 0xAD), (0x200C, 0x200C), (0x2060, 0x2060), (0xFEFF, 0xFEFF), (0x1F3FB, 0x1F3FF)]

def blanks : CharRanges :=
  [(0x20, 0x20), (0x1680, 0x1680), (0x2000, 0x2006), (0x2008, 0x200A), (0x205F, 0x205F),
   (0x3000, 0x3000)]

def pictographs : CharRanges :=
  [(0xA9, 0xA9), (0xAE, 0xAE), (0x203C, 0x203C), (0x2049, 0x2049), (0x2122, 0x2122),
   (0x2194, 0x2199), (0x21A9, 0x21AA), (0x231A, 0x231B), (0x2328, 0x2328), (0x2388, 0x2388),
   (0x23CF, 0x23CF), (0x23E9, 0x23F3), (0x23F8, 0x23FA), (0x25AA, 0x25AB), (0x25B6, 0x25B6),
   (0x25C0, 0x25C0), (0x25FB, 0x25FE), (0x2600, 0x2605), (0x2607, 0x2612), (0x2614, 0x2685),
   (0x2690, 0x2705), (0x2708, 0x2712), (0x2714, 0x2714), (0x2716, 0x2716), (0x271D, 0x271D),
   (0x2721, 0x2721), (0x2728, 0x2728), (0x2733, 0x2734), (0x2744, 0x2744), (0x2747, 0x2747),
   (0x274C, 0x274C), (0x274E, 0x274E), (0x2753, 0x2755), (0x2757, 0x2757), (0x2763, 0x2767),
   (0x2795, 0x2797), (0x27A1, 0x27A1), (0x27B0, 0x27B0), (0x27BF, 0x27BF), (0x2934, 0x2935),
   (0x2B05, 0x2B07), (0x2B1B, 0x2B1C), (0x2B50, 0x2B50), (0x2B55, 0x2B55), (0x3030, 0x3030),
   (0x303D, 0x303D), (0x3297, 0x3297), (0x3299, 0x3299), (0x1F000, 0x1F0FF),
   (0x1F10D, 0x1F10F), (0x1F12F, 0x1F12F), (0x1F16C, 0x1F171), (0x1F17E, 0x1F17F),
   (0x1F18E, 0x1F18E), (0x1F191, 0x1F19A), (0x1F1AD, 0x1F1E5), (0x1F201, 0x1F20F),
   (0x1F21A, 0x1F21A), (0x1F22F, 0x1F22F), (0x1F232, 0x1F23A), (0x1F23C, 0x1F23F),
   (0x1F249, 0x1F3FA), (0x1F400, 0x1F53D), (0x1F546, 0x1F64F), (0x1F680, 0x1F6FF),
   (0x1F774, 0x1F77F), (0x1F7D5, 0x1F7FF), (0x1F80C, 0x1F80F), (0x1F848, 0x1F84F),
   (0x1F85A, 0x1F85F), (0x1F888, 0x1F88F), (0x1F8AE, 0x1F8FF), (0x1F90C, 0x1F93A),
   (0x1F93C, 0x1F945), (0x1F947, 0x1FAFF), (0x1FC00, 0x1FFFD)]

/-- The class of a character. -/
def ofChar (c : Char) : WordClass :=
  let n := c.toNat
  if letters.holds n then letter
  else if digits.holds n then digit
  else if blanks.holds n then space
  else if n = 0x2E || n = 0x27 || n = 0x2018 || n = 0x2019 || n = 0x2024 then midBoth
  else if n = 0x2C || n = 0x3B then midDigit
  else if n = 0xB7 || n = 0x2027 then midLetter
  else if n = 0x5F || n = 0x203F then connector
  else if n = 0xD then carriageReturn
  else if n = 0xA then lineFeed
  else if n = 0xB || n = 0xC || n = 0x85 || n = 0x2028 || n = 0x2029 then newline
  else if marks.holds n then mark
  else if formats.holds n then format
  else if n = 0x200D then joiner
  else if 0x1F1E6 ≤ n && n ≤ 0x1F1FF then regional
  else if pictographs.holds n then pictograph
  else other

end WordClass

end Concordance
