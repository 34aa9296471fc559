import Concordance.Index.Basic

/-!
# Checking an index

An index that comes from elsewhere is checked before it is used. The check goes through the terms
in order and through the postings of each, and names the first thing that is wrong; then it looks
whether the documents list only terms that are there.
-/

namespace Concordance

/-- Whether neighbours in a list are in a given relation. -/
def neighbours {α : Type} (r : α → α → Bool) : List α → Bool
  | a :: b :: l => r a b && neighbours r (b :: l)
  | _ => true

namespace Index

/-- The check of the fields of one posting; `previous` is the field before. -/
def checkFields (term id : Bytes) (previous : Option Bytes) :
    List FieldHits → Except IndexFault Unit
  | [] => .ok ()
  | h :: rest =>
    if previous.any fun f ↦ ¬ f < h.field then .error (.unorderedFields term id)
    else if h.positions.isEmpty || !neighbours (fun a b ↦ a < b) h.positions then
      .error (.badPositions term id)
    else checkFields term id (some h.field) rest

/-- The check of one posting of a term; `previous` is the document before. -/
def checkPosting (ix : Index) (term : Bytes) (previous : Option Bytes) (p : Posting) :
    Except IndexFault Unit :=
  if previous.any fun d ↦ ¬ d < p.doc then .error (.unorderedPostings term)
  else if !ix.hasDocument p.doc then .error (.unknownDocument term p.doc)
  else if p.fields.isEmpty then .error (.postingWithoutFields term p.doc)
  else do
    checkFields term p.doc none p.fields
    if hitCount p.fields ≠ p.frequency then .error (.wrongFrequency term p.doc)

/-- The check of the postings of a term; `previous` is the document before. -/
def checkPostings (ix : Index) (term : Bytes) (previous : Option Bytes) :
    Postings → Except IndexFault Unit
  | [] => .ok ()
  | p :: rest => do
    checkPosting ix term previous p
    checkPostings ix term (some p.doc) rest

/-- The check of a term. -/
def checkTerm (ix : Index) (e : Bytes × Postings) : Except IndexFault Unit :=
  if e.2.isEmpty then .error (.emptyPostings e.1) else checkPostings ix e.1 none e.2

/-- The check of a document. -/
def checkDocument (ix : Index) (e : Bytes × DocumentEntry) : Except IndexFault Unit :=
  match e.2.terms.find? fun t ↦ !ix.hasTerm t with
  | some t => .error (.unknownTerm e.1 t)
  | none => .ok ()

/-- The first thing that is wrong with an index, if anything is. -/
def check (ix : Index) : Except IndexFault Unit := do
  ix.terms.entries.forM ix.checkTerm
  ix.documents.entries.forM ix.checkDocument

end Index

end Concordance
