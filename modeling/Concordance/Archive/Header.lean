import Concordance.Archive.Word

/-!
# The header of an archive

An archive begins with a header of forty bytes: a mark that tells archives from other files, the
version of the format, and the counts that the reader needs in advance.
-/

namespace Concordance.Archive

/-- The header of an archive. -/
structure Header where
  magic : UInt32
  major : UInt16
  minor : UInt16
  flags : UInt32
  documents : UInt32
  terms : UInt32
  reserved : UInt32
  tokens : UInt64
  version : UInt64
  deriving DecidableEq, Repr

/-- The mark of an archive, the letters `TSX1`. -/
def magic : UInt32 := 0x31585354

/-- The version of the format that is read and written. -/
def majorVersion : UInt16 := 1

/-- The greatest number of bytes of a string that is read. -/
def maxStringLength : UInt32 := 16777216

/-- The bytes of a header. -/
def Header.encode (h : Header) : Bytes :=
  littleEndian 4 h.magic.toNat ++ littleEndian 2 h.major.toNat ++ littleEndian 2 h.minor.toNat ++
    littleEndian 4 h.flags.toNat ++ littleEndian 4 h.documents.toNat ++
    littleEndian 4 h.terms.toNat ++ littleEndian 4 h.reserved.toNat ++
    littleEndian 8 h.tokens.toNat ++ littleEndian 8 h.version.toNat

end Concordance.Archive
