import Concordance.Archive.Header
import Concordance.Index.Basic

/-!
# Writing an index

After the header come the documents and then the terms, both in order. Every string is preceded by
its length and every list by the number of its items, as numbers of four bytes.
-/

namespace Concordance.Archive

/-- A number of four bytes. -/
def word (n : UInt32) : Bytes :=
  littleEndian 4 n.toNat

/-- A string after its length. -/
def string (s : Bytes) : Bytes :=
  word s.length.toUInt32 ++ s

/-- Items after their number. -/
def list {α : Type} (item : α → Bytes) (l : List α) : Bytes :=
  word l.length.toUInt32 ++ l.flatMap item

/-- The length of a field. -/
def fieldLength (e : Bytes × UInt32) : Bytes :=
  string e.1 ++ word e.2

/-- A document with its entry. -/
def document (e : Bytes × DocumentEntry) : Bytes :=
  string e.1 ++ list fieldLength e.2.fieldLengths.entries ++ list string e.2.terms

/-- The hits in a field. -/
def fieldHits (h : FieldHits) : Bytes :=
  string h.field ++ list word h.positions

/-- A posting. -/
def posting (p : Posting) : Bytes :=
  string p.doc ++ word p.frequency ++ list fieldHits p.fields

/-- A term with its postings. -/
def term (e : Bytes × Postings) : Bytes :=
  string e.1 ++ list posting e.2

/-- The header for an index. -/
def header (ix : Index) : Header where
  magic := magic
  major := majorVersion
  minor := 0
  flags := 0
  documents := ix.documents.size.toUInt32
  terms := ix.terms.size.toUInt32
  reserved := 0
  tokens := ix.tokens
  version := ix.version

/-- The archive of an index. -/
def encode (ix : Index) : Bytes :=
  (header ix).encode ++ ix.documents.entries.flatMap document ++ ix.terms.entries.flatMap term

end Concordance.Archive
