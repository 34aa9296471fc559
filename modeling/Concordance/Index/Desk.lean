import Concordance.Index.History

/-!
# How a change is worked out

A change is not made in the index that is published. It is worked out at a desk: on a draft of the
next version, and on sheets, one for each term whose postings the change has touched. The postings
of a term are copied to its sheet when they are touched first, and from then on it is the sheet that
counts. Only when all has been done the sheets are put into the draft, and the draft is published.

A job at the desk can fail half way, and then the desk stays as it is at that moment, with a draft
that is good for nothing. It is begun anew from the published index by the next change.
-/

namespace Concordance

/-- The place where an index is changed. -/
structure Desk where
  /-- The index that everybody sees. -/
  published : Index
  /-- The next version, as far as its documents go. -/
  draft : Index
  /-- The postings of the terms that have been touched. There may be none left of a term. -/
  sheets : Dict Postings

namespace Desk

/-- Something that is done at a desk, and the error if it fails. What has been done until then stays
done. -/
abbrev Job := Desk → Desk × Option Error

namespace Job

/-- One job, and then another if the first did not fail. -/
def andThen (first second : Job) : Job := fun desk ↦
  match first desk with
  | (desk, none) => second desk
  | (desk, some fault) => (desk, some fault)

/-- A job for each item of a list, until one fails. -/
def each {α : Type} (job : α → Job) : List α → Job
  | [] => fun desk ↦ (desk, none)
  | x :: rest => (job x).andThen (each job rest)

end Job

/-- The postings of a term: those on its sheet, or else those of the draft. -/
def postings (desk : Desk) (term : Bytes) : Postings :=
  (desk.sheets.find? term).getD ((desk.draft.terms.find? term).getD [])

/-- The desk with postings on the sheet of a term. -/
def putSheet (desk : Desk) (term : Bytes) (postings : Postings) : Desk :=
  { desk with sheets := desk.sheets.insert term postings }

/-- The desk at the beginning of a change. -/
def cleared (desk : Desk) : Desk :=
  { desk with draft := desk.published, sheets := ∅ }

/-- The terms of the draft with the sheets put in. -/
def collected (desk : Desk) : Dict Postings :=
  desk.sheets.entries.foldl (fun terms e ↦ Index.setPostings terms e.1 e.2) desk.draft.terms

/-- Takes the posting of a document for a term out. The postings of the term are on a sheet after
it, whether or not the posting is found. -/
def retractTerm (id term : Bytes) : Job := fun desk ↦
  let postings := desk.postings term
  match Index.splitAt id postings with
  | (before, p :: after) =>
    if p.doc = id then (desk.putSheet term (before ++ after), none)
    else (desk.putSheet term postings, some (.index (.missingPosting id term)))
  | (_, []) => (desk.putSheet term postings, some (.index (.missingPosting id term)))

/-- Takes the entry of a document out. -/
def strike (id : Bytes) (entry : DocumentEntry) : Job := fun desk ↦
  ({ desk with draft := { desk.draft with
      documents := desk.draft.documents.erase id
      tokens := desk.draft.tokens - entry.length.toUInt64 } }, none)

/-- Takes a document out, with its postings for all terms that it lists. -/
def retract (id : Bytes) : Job := fun desk ↦
  match desk.draft.documents.find? id with
  | none => (desk, none)
  | some entry => ((Job.each (retractTerm id) entry.terms).andThen (strike id entry)) desk

/-- Puts the posting of a document for a term in. -/
def recordTerm (d : AnalyzedDocument) (term : Bytes) : Job := fun desk ↦
  let (before, after) := Index.splitAt d.id (desk.postings term)
  (desk.putSheet term (before ++ d.posting term :: after), none)

/-- Puts the entry of a document in. -/
def enter (d : AnalyzedDocument) : Job := fun desk ↦
  ({ desk with draft := { desk.draft with
      documents := desk.draft.documents.insert d.id d.entry
      tokens := desk.draft.tokens + d.entry.length.toUInt64 } }, none)

/-- Puts a document in, with its postings. -/
def record (d : AnalyzedDocument) : Job :=
  (Job.each (recordTerm d) d.terms.toList).andThen (enter d)

/-- Replaces or adds a document. -/
def replace (d : AnalyzedDocument) : Job :=
  (retract d.id).andThen (record d)

/-- Publishes the draft with the sheets put in, as the next version. -/
def publish : Job := fun desk ↦
  let next := { desk.draft with terms := desk.collected, version := desk.published.version + 1 }
  ({ desk with published := next, draft := next }, none)

/-- Adds a batch of documents. They are analyzed before anything is touched. -/
def add (a : Analyzer) (batch : List Document) : Job := fun desk ↦
  match batch.mapM (Document.analyze a) with
  | .error fault => (desk, some fault)
  | .ok analyzed => ((Job.each replace analyzed).andThen publish) desk.cleared

/-- Removes a document. An unknown one is no change. -/
def remove (id : Bytes) : Job := fun desk ↦
  if desk.published.hasDocument id then ((retract id).andThen publish) desk.cleared
  else (desk, none)

end Desk

end Concordance
