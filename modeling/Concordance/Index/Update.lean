import Concordance.Analyzer.Basic
import Concordance.Index.Basic

/-!
# Changing an index

Documents are added in batches. Every document of a batch is analyzed before the index is touched,
so a malformed one leaves no trace; then each is retracted, if it is there already, and recorded
anew. The result is published as one new version. Whatever goes wrong, the caller still holds the
index it had.
-/

namespace Concordance

/-- A document: an identifier, and a text for each field. -/
structure Document where
  id : Bytes
  fields : Dict Bytes
  deriving DecidableEq

/-- A document whose fields have been turned into tokens. -/
structure AnalyzedDocument where
  id : Bytes
  /-- The tokens of each field, by ascending field name. -/
  fields : List (Bytes × List Token)
  deriving DecidableEq

namespace AnalyzedDocument

/-- The distinct terms of a document. -/
def terms (d : AnalyzedDocument) : ByteSet :=
  .ofList (d.fields.flatMap fun f ↦ f.2.map (·.text))

/-- Where a term occurs in one field of a document, if it does. -/
def hits? (term : Bytes) (field : Bytes × List Token) : Option FieldHits :=
  let positions := (field.2.filter (·.text == term)).map (·.position)
  if positions.isEmpty then none else some ⟨field.1, positions⟩

/-- The posting of a document for a term. -/
def posting (d : AnalyzedDocument) (term : Bytes) : Posting :=
  let fields := d.fields.filterMap (hits? term)
  ⟨d.id, fields, hitCount fields⟩

/-- What the index keeps of a document. -/
def entry (d : AnalyzedDocument) : DocumentEntry :=
  ⟨.ofList (d.fields.map fun f ↦ (f.1, f.2.length.toUInt32)), d.terms.toList⟩

end AnalyzedDocument

namespace Document

/-- The tokens of one field of a document. The name of a field must not be empty, and its text must
pass for well-formed. -/
def analyzeField (a : Analyzer) (id : Bytes) (field : Bytes × Bytes) :
    Except Error (Bytes × List Token) :=
  if field.1.isEmpty then .error (.ingest (.emptyFieldName id))
  else if !Utf8.passes field.2 then .error (.ingest (.illFormedText field.1 id))
  else .ok (field.1, a.tokens field.2 field.1)

/-- The document turned into tokens. It must have an identifier and at least one field. -/
def analyze (a : Analyzer) (d : Document) : Except Error AnalyzedDocument :=
  if d.id.isEmpty then .error (.ingest .emptyId)
  else if d.fields.isEmpty then .error (.ingest (.noFields d.id))
  else do
    let fields ← d.fields.entries.mapM (analyzeField a d.id)
    return ⟨d.id, fields⟩

end Document

namespace Index

/-- The postings of a term replaced; a term without postings is not kept. -/
def setPostings (terms : Dict Postings) (term : Bytes) (postings : Postings) : Dict Postings :=
  if postings.isEmpty then terms.erase term else terms.insert term postings

/-- The postings before a document, and those from it on. -/
def splitAt (id : Bytes) (postings : Postings) : Postings × Postings :=
  postings.span (·.doc < id)

/-- The terms after the posting of a document for one of them has been taken out. -/
def retractTerm (id : Bytes) (terms : Dict Postings) (term : Bytes) :
    Except Error (Dict Postings) :=
  match splitAt id ((terms.find? term).getD []) with
  | (before, p :: after) =>
    if p.doc = id then .ok (setPostings terms term (before ++ after))
    else .error (.index (.missingPosting id term))
  | (_, []) => .error (.index (.missingPosting id term))

/-- The index without a document. The document is taken out of the postings of every term that it
lists; to retract an unknown document changes nothing. -/
def retract (ix : Index) (id : Bytes) : Except Error Index :=
  match ix.documents.find? id with
  | none => .ok ix
  | some entry => do
    let terms ← entry.terms.foldlM (retractTerm id) ix.terms
    return { ix with
      terms, documents := ix.documents.erase id, tokens := ix.tokens - entry.length.toUInt64 }

/-- The terms with one more posting, put before the first posting of a document that is not
smaller. -/
def recordTerm (d : AnalyzedDocument) (terms : Dict Postings) (term : Bytes) : Dict Postings :=
  let (before, after) := splitAt d.id ((terms.find? term).getD [])
  terms.insert term (before ++ d.posting term :: after)

/-- The index with a document that it does not have yet. -/
def record (ix : Index) (d : AnalyzedDocument) : Index :=
  { ix with
    terms := d.terms.toList.foldl (recordTerm d) ix.terms
    documents := ix.documents.insert d.id d.entry
    tokens := ix.tokens + d.entry.length.toUInt64 }

/-- The index with a document replaced or added. -/
def replace (ix : Index) (d : AnalyzedDocument) : Except Error Index := do
  let ix ← ix.retract d.id
  return ix.record d

/-- The index as its next version. -/
def publish (ix : Index) : Index :=
  { ix with version := ix.version + 1 }

/-- The index with a batch of documents added, as one new version. -/
def add (ix : Index) (a : Analyzer) (batch : List Document) : Except Error Index := do
  let analyzed ← batch.mapM (Document.analyze a)
  let ix ← analyzed.foldlM replace ix
  return ix.publish

/-- The index without a document, as a new version, or `none` if the document is unknown. -/
def remove (ix : Index) (id : Bytes) : Except Error (Option Index) :=
  if ix.hasDocument id then do
    let ix ← ix.retract id
    return some ix.publish
  else
    .ok none

/-- The index without any documents, as a new version. -/
def clear (ix : Index) : Index :=
  { empty with version := ix.version + 1 }

end Index

end Concordance
