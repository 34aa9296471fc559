/-!
# Byte strings

Identifiers, field names, terms, texts and files are strings of bytes. They are compared and
ordered byte by byte as unsigned numbers, which is the lexicographic order that `List` carries, so
the order facts below are the ones a sorted dictionary needs.
-/

namespace Concordance

/-- A string of bytes. -/
abbrev Bytes := List UInt8

/-- The UTF-8 bytes of a list of characters. -/
def encode (cs : List Char) : Bytes :=
  cs.flatMap String.utf8EncodeChar

/-- The UTF-8 bytes of a text. -/
def utf8 (s : String) : Bytes :=
  encode s.toList

/-- The decimal digits of a number. -/
def decimal (n : Nat) : Bytes :=
  encode (Nat.toDigits 10 n)

namespace Bytes

/-- White space in the sense of plain ASCII text: a blank, or one of tab, line feed, vertical tab,
form feed and carriage return. -/
def isSpace (b : UInt8) : Bool :=
  b == 32 || (9 ≤ b && b ≤ 13)

/-- The bytes after leading white space. -/
def trimLeft (s : Bytes) : Bytes :=
  s.dropWhile isSpace

/-- The bytes before trailing white space. -/
def trimRight (s : Bytes) : Bytes :=
  (trimLeft s.reverse).reverse

/-- Trimming never lengthens. -/
theorem length_trimLeft_le (s : Bytes) : (trimLeft s).length ≤ s.length := by
  induction s with
  | nil => simp [trimLeft]
  | cons b s ih =>
    simp only [trimLeft, List.dropWhile_cons] at ih ⊢
    split
    · exact Nat.le_succ_of_le ih
    · simp

/-- The maximal runs of a byte string that hold no byte with property `isGap`. -/
def runsWithout (isGap : UInt8 → Bool) : Bytes → List Bytes
  | [] => []
  | b :: s =>
    if isGap b then runsWithout isGap s
    else
      match s with
      | [] => [[b]]
      | next :: _ =>
        if isGap next then [b] :: runsWithout isGap s
        else
          match runsWithout isGap s with
          | [] => [[b]]
          | run :: runs => (b :: run) :: runs

/-- The words of a byte string: its maximal runs without white space. -/
def words (s : Bytes) : List Bytes :=
  runsWithout isSpace s

/-- The lines of a byte string. Each ends at a line feed, and a last line without one counts. -/
def lines : Bytes → List Bytes
  | [] => []
  | b :: s =>
    if b = 10 then [] :: lines s
    else
      match s with
      | [] => [[b]]
      | _ =>
        match lines s with
        | [] => [[b]]
        | line :: rest => (b :: line) :: rest

/-- The pieces of a byte string between separators, of which there is always at least one. -/
def pieces (separator : UInt8) : Bytes → List Bytes
  | [] => [[]]
  | b :: s =>
    if b = separator then [] :: pieces separator s
    else
      match pieces separator s with
      | [] => [[b]]
      | piece :: rest => (b :: piece) :: rest

/-- The byte strings joined with a separator between neighbours. -/
def joined (separator : Bytes) : List Bytes → Bytes
  | [] => []
  | [s] => s
  | s :: rest => s ++ separator ++ joined separator rest

/-! ### The order -/

/-- **Two byte strings of which neither is smaller are equal.** -/
theorem eq_of_not_lt {a b : Bytes} (h : ¬ a < b) (h' : ¬ b < a) : a = b :=
  List.le_antisymm (List.not_lt.1 h') (List.not_lt.1 h)

/-- A byte string that is neither smaller nor equal is larger. -/
theorem lt_of_not_lt_of_ne {a b : Bytes} (h : ¬ a < b) (hne : a ≠ b) : b < a :=
  Decidable.byContradiction fun h' ↦ hne (eq_of_not_lt h h')

theorem lt_trans {a b c : Bytes} (h : a < b) (h' : b < c) : a < c :=
  List.lt_trans h h'

theorem lt_irrefl (a : Bytes) : ¬ a < a :=
  List.lt_irrefl a

theorem ne_of_lt {a b : Bytes} (h : a < b) : a ≠ b :=
  fun he ↦ lt_irrefl b (he ▸ h)

end Bytes

end Concordance
