import Concordance.Text.Utf8

/-!
# Word breaks, lower case and letters

Where a text breaks into words, what its lower case is, and which characters are letters, digits or
marks: a library of the world's scripts knows this, and an analyzer asks it. What it answers differs
from one edition of the library to the next, so nothing here depends on the answers. `Orthography`
has the questions, and as laws the little that is promised about the answers whatever the script.

A boundary is a place in a text, given by the number of bytes before it. The words of a text are the
pieces between neighbouring boundaries that end in a word, and what is kept of a word for its term
is its lower case without whatever is no letter, digit or mark.
-/

namespace Concordance

/-- A place at which a text may be broken. -/
structure Boundary where
  /-- The number of bytes before it. -/
  stop : Nat
  /-- Whether a word ends here, and not only white space or punctuation. -/
  closesWord : Bool
  deriving DecidableEq, Repr

/-- What is known of the scripts in which texts are written. -/
class Orthography where
  /-- The boundaries of a text after its beginning. -/
  boundaries : Bytes → List Boundary
  /-- A string in lower case, without regard to a language. -/
  lower : List Char → List Char
  /-- Letters and digits. -/
  isAlphanumeric : Char → Bool
  /-- Marks, which belong to a character before them. -/
  isMark : Char → Bool
  /-- Boundaries are listed from the beginning of the text on, each once. -/
  ascending (text : Bytes) : (boundaries text).Pairwise (·.stop < ·.stop)
  /-- They are places inside the text or at its end, kept in 32 bits with a sign. -/
  inside (text : Bytes) :
    ∀ b ∈ boundaries text, 0 < b.stop ∧ b.stop ≤ text.length ∧ b.stop < 0x80000000
  /-- White space is no word. -/
  blank (text : Bytes) (h : ∀ b ∈ text, Bytes.isSpace b = true) :
    ∀ b ∈ boundaries text, b.closesWord = false
  /-- Characters that stand in a lower case are in lower case. -/
  settled (s t : List Char) (h : t.Sublist (lower s)) : lower t = t
  /-- The length of a string in bytes is kept in 32 bits with a sign. -/
  short (s : List Char) (h : s.length < 0x80000000) : (encode (lower s)).length < 0x80000000

namespace Orthography

/-- The words among the pieces of a text that end at the given boundaries. The rest of the text from
`start` on is given; `start` is the boundary before them. -/
def wordsFrom (start : Nat) (rest : Bytes) : List Boundary → List Bytes
  | [] => []
  | b :: bs =>
    let later := wordsFrom b.stop (rest.drop (b.stop - start)) bs
    if b.closesWord then rest.take (b.stop - start) :: later else later

/-- The words of a text, in order. -/
def words (o : Orthography) (text : Bytes) : List Bytes :=
  wordsFrom 0 text (o.boundaries text)

/-- Whether a character stays in a term. -/
def isTermChar (o : Orthography) (c : Char) : Bool :=
  o.isAlphanumeric c || o.isMark c

/-- The characters of a word that make its term: in lower case, letters, digits and marks only. -/
def termChars (o : Orthography) (word : Bytes) : List Char :=
  (o.lower (Utf8.decodeLossy word)).filter o.isTermChar

end Orthography

end Concordance
