import Concordance.Dict
import Concordance.Error

/-!
# The index

An index maps terms to the places where they occur. A posting says where one term occurs in one
document, field by field; the postings of a term are a list in the order of document identifiers.
Beside the terms an index keeps for each document the lengths of its fields and its distinct terms,
the number of tokens of all documents together, and a version that counts its publications.

An index is a value: a search works on the one it was given, whatever is published meanwhile.
-/

namespace Concordance

/-- Where a term occurs in one field: the positions, ascending. -/
structure FieldHits where
  field : Bytes
  positions : List UInt32
  deriving DecidableEq, Repr

/-- The sum of words of 32 bits, which wraps around as they do. -/
def total : List UInt32 → UInt32
  | [] => 0
  | n :: ns => n + total ns

/-- The number of positions in several fields. -/
def hitCount (fields : List FieldHits) : UInt32 :=
  total (fields.map fun h ↦ h.positions.length.toUInt32)

/-- Where a term occurs in one document, by ascending field name. -/
structure Posting where
  doc : Bytes
  fields : List FieldHits
  /-- The number of occurrences in all fields. -/
  frequency : UInt32
  deriving DecidableEq, Repr

/-- The postings of one term, by ascending document identifier. -/
abbrev Postings := List Posting

/-- What an index keeps of a document. -/
structure DocumentEntry where
  /-- The number of tokens in each field. -/
  fieldLengths : Dict UInt32
  /-- The distinct terms, in the order in which they were recorded. -/
  terms : List Bytes
  deriving DecidableEq

namespace DocumentEntry

/-- The number of tokens in the fields of a document that a test admits. -/
def lengthWhere (admits : Bytes → Bool) (d : DocumentEntry) : UInt32 :=
  total ((d.fieldLengths.entries.filter fun e ↦ admits e.1).map (·.2))

/-- The number of tokens of a document. -/
def length (d : DocumentEntry) : UInt32 :=
  total d.fieldLengths.values

end DocumentEntry

/-- An index. -/
structure Index where
  terms : Dict Postings
  documents : Dict DocumentEntry
  /-- The number of tokens of all documents. -/
  tokens : UInt64
  /-- Counts the publications. -/
  version : UInt64
  deriving DecidableEq

/-- Figures about an index. -/
structure IndexStats where
  documents : Nat
  terms : Nat
  postings : Nat
  tokens : UInt64
  averageLength : Float

namespace Index

/-- The index without documents, never published. -/
def empty : Index :=
  ⟨∅, ∅, 0, 0⟩

/-- The postings of a term; an unknown term has none. -/
def postings (ix : Index) (term : Bytes) : Postings :=
  (ix.terms.find? term).getD []

/-- Whether a term occurs in the index. -/
def hasTerm (ix : Index) (term : Bytes) : Bool :=
  ix.terms.contains term

/-- Whether a document is in the index. -/
def hasDocument (ix : Index) (id : Bytes) : Bool :=
  ix.documents.contains id

/-- The terms that begin with the given bytes, in ascending order. In the order of terms they are
one run, which begins at the first term that is not smaller than the given bytes. -/
def termsBeginning (ix : Index) (start : Bytes) : List Bytes :=
  (ix.terms.keys.dropWhile (· < start)).takeWhile (start.isPrefixOf ·)

/-- The mean number of tokens of a document, `0` if there is none. -/
def averageLength (ix : Index) : Float :=
  if ix.documents.isEmpty then 0
  else ix.tokens.toFloat / ix.documents.size.toUInt64.toFloat

/-- The figures of an index. -/
def stats (ix : Index) : IndexStats where
  documents := ix.documents.size
  terms := ix.terms.size
  postings := ix.terms.values.foldr (fun postings n ↦ postings.length + n) 0
  tokens := ix.tokens
  averageLength := ix.averageLength

end Index

end Concordance
