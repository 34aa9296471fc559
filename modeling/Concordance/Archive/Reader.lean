import Concordance.Archive.Header
import Concordance.Index.Soundness

/-!
# Reading an index

A reader takes bytes from the front of what is left of the file; where too few are left, the file is
truncated. What is read is checked while it is read as far as the reader depends on it, and as a
whole at the end, so an archive that is accepted holds a sound index. Bytes after the last term are
not looked at.
-/

namespace Concordance.Archive

/-- A function that reads something from the front of a file. -/
abbrev Reader (α : Type) := StateT Bytes (Except ArchiveFault) α

namespace Reader

/-- The next `n` bytes. -/
def take (n : Nat) : Reader Bytes := fun s ↦
  let front := s.take n
  if front.length = n then .ok (front, s.drop n) else .error .truncated

/-- A number of the given width. -/
def number (width : Nat) : Reader Nat :=
  ofLittleEndian <$> take width

/-- A number of four bytes. -/
def word : Reader UInt32 :=
  Nat.toUInt32 <$> number 4

/-- A number of two bytes. -/
def halfWord : Reader UInt16 :=
  Nat.toUInt16 <$> number 2

/-- A number of eight bytes. -/
def longWord : Reader UInt64 :=
  Nat.toUInt64 <$> number 8

/-- A string after its length. -/
def string : Reader Bytes := do
  let length ← word
  if maxStringLength < length then throw .oversizedString
  take length.toNat

/-- `n` items. -/
def times {α : Type} (item : Reader α) : Nat → Reader (List α)
  | 0 => return []
  | n + 1 => do
    let a ← item
    let rest ← times item n
    return a :: rest

/-- Items after their number. -/
def list {α : Type} (item : Reader α) : Reader (List α) := do
  let n ← word
  times item n.toNat

/-- `n` steps, each of which reads something into what has been collected. -/
def collect {σ : Type} (step : σ → Reader σ) : Nat → σ → Reader σ
  | 0, acc => return acc
  | n + 1, acc => do
    let acc ← step acc
    collect step n acc

/-- The header. -/
def header : Reader Header := do
  let magic ← word
  let major ← halfWord
  let minor ← halfWord
  let flags ← word
  let documents ← word
  let terms ← word
  let reserved ← word
  let tokens ← longWord
  let version ← longWord
  return { magic, major, minor, flags, documents, terms, reserved, tokens, version }

/-- The length of a field. -/
def fieldLength : Reader (Bytes × UInt32) := do
  let field ← string
  let length ← word
  return (field, length)

/-- What the index keeps of a document. Where a field is listed twice the last length counts. -/
def documentEntry : Reader DocumentEntry := do
  let fieldLengths ← list fieldLength
  let terms ← list string
  return ⟨.ofList fieldLengths, terms⟩

/-- One more document, and the number of tokens of all documents so far. -/
def document (acc : Dict DocumentEntry × UInt64) : Reader (Dict DocumentEntry × UInt64) := do
  let id ← string
  let entry ← documentEntry
  if acc.1.contains id then throw .repeatedDocument
  return (acc.1.insert id entry, acc.2 + entry.length.toUInt64)

/-- The hits in a field of a posting with the given frequency. -/
def fieldHits (frequency : UInt32) : Reader FieldHits := do
  let field ← string
  let n ← word
  if frequency < n then throw .tooManyPositions
  let positions ← times word n.toNat
  return ⟨field, positions⟩

/-- A posting. -/
def posting : Reader Posting := do
  let doc ← string
  let frequency ← word
  let fields ← list (fieldHits frequency)
  return ⟨doc, fields, frequency⟩

/-- One more term. -/
def term (terms : Dict Postings) : Reader (Dict Postings) := do
  let name ← string
  let postings ← list posting
  if terms.contains name then throw .repeatedTerm
  return terms.insert name postings

/-- A whole archive. -/
def archive : Reader (Header × Index) := do
  let h ← header
  if h.magic ≠ magic then throw .notArchive
  if h.major ≠ majorVersion then throw (.unsupportedVersion h.major)
  let (documents, counted) ← collect document h.documents.toNat (∅, 0)
  if counted ≠ h.tokens then throw .wrongTokenCount
  let terms ← collect term h.terms.toNat ∅
  let ix : Index := ⟨terms, documents, h.tokens, h.version⟩
  match ix.check with
  | .ok () => return (h, ix)
  | .error fault => throw (.unsound fault)

end Reader

/-- The header and the index of an archive. -/
def decode (s : Bytes) : Except ArchiveFault (Header × Index) :=
  (·.1) <$> Reader.archive.run s

end Concordance.Archive
