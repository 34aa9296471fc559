import Concordance.Index.History
import Concordance.Proofs.Dict
import Mathlib.Algebra.BigOperators.Group.List.Basic
import Mathlib.Algebra.Ring.Nat

/-!
# Corpora and their indexes

What an index is about is a corpus: the documents that are there, each with the texts of its
fields. `Corpus.index` says what the index of a corpus is, without regard to how it came about:
every entry, every posting and every number in it is read off the texts. A history of an index is
a history of its corpus as well (`Index.course`, `Corpus.course`), and the question that the two
raise, whether the index is always the one of the corpus, is answered in
`Concordance.Proofs.History`.

A history is listed with its latest move first, so that what holds after it is proved by recursion
on the list, from the moves before. The numbers of an index are words of 32 bits; a document fits
if its tokens can be counted with them.
-/

namespace Concordance

/-- The documents that are there: for each identifier the texts of the fields. -/
abbrev Corpus := Dict (Dict Bytes)

namespace Corpus

variable (a : Analyzer)

/-! ### One document -/

/-- The tokens of the fields of a document, by ascending field name. -/
def fieldTokens (fields : Dict Bytes) : List (Bytes × List Token) :=
  fields.entries.map fun f ↦ (f.1, a.tokens f.2 f.1)

/-- The number of tokens of a document. -/
def size (fields : Dict Bytes) : Nat :=
  ((fieldTokens a fields).map fun f ↦ f.2.length).sum

/-- The distinct terms of a document. -/
def terms (fields : Dict Bytes) : ByteSet :=
  .ofList ((fieldTokens a fields).flatMap fun f ↦ f.2.map (·.text))

/-- The positions of a term among tokens. -/
def positions (term : Bytes) (tokens : List Token) : List UInt32 :=
  (tokens.filter (·.text = term)).map (·.position)

/-- Whether a term occurs in a document. -/
def Occurs (term : Bytes) (fields : Dict Bytes) : Prop :=
  ∃ field text, fields.find? field = some text ∧ ∃ token ∈ a.tokens text field, token.text = term

/-- The numbers of the words of a text that make a term, counted from zero. -/
def places (term text : Bytes) : List Nat :=
  ((a.orthography.words text).zipIdx.filter fun w ↦ a.term? true w.1 = some term).map (·.2)

/-- Where a term occurs in a document: the fields that have it, by ascending name, and its
positions there. -/
def hits (term : Bytes) (fields : Dict Bytes) : List FieldHits :=
  ((fieldTokens a fields).map fun f ↦ ⟨f.1, positions term f.2⟩).filter (·.positions ≠ [])

/-- The number of occurrences of a term in a document. -/
def occurrences (term : Bytes) (fields : Dict Bytes) : Nat :=
  ((hits a term fields).map fun h ↦ h.positions.length).sum

/-- The posting of a document for a term that occurs in it. -/
def posting? (term : Bytes) (id : Bytes) (fields : Dict Bytes) : Option Posting :=
  if hits a term fields = [] then none
  else some ⟨id, hits a term fields, (occurrences a term fields).toUInt32⟩

/-- What an index keeps of a document. -/
def entry (fields : Dict Bytes) : DocumentEntry where
  fieldLengths := fields.mapValues fun field text ↦ (a.tokens text field).length.toUInt32
  terms := (terms a fields).toList

/-! ### All documents -/

variable (c : Corpus)

/-- The terms that occur in a document. -/
def vocabulary : ByteSet :=
  .ofList (c.values.flatMap fun fields ↦ (terms a fields).toList)

/-- The postings of a term: one for each document in which it occurs. -/
def postings (term : Bytes) : Postings :=
  c.entries.filterMap fun d ↦ posting? a term d.1 d.2

/-- **The index of a corpus**, as the given version. -/
def index (version : UInt64) : Index where
  terms := (c.vocabulary a).mapValues fun term _ ↦ c.postings a term
  documents := c.mapValues fun _ fields ↦ entry a fields
  tokens := ((c.values.map (size a)).sum).toUInt64
  version := version

/-- What it is for an index to tell the truth about a corpus and nothing but it. Each number is
exact, save that the number of all tokens has 64 bits. -/
structure Describes (ix : Index) : Prop where
  /-- The documents are those of the corpus. -/
  documents : ∀ id, ix.hasDocument id = c.contains id
  /-- A document has the number of tokens of each of its fields. -/
  lengths : ∀ id fields e, c.find? id = some fields → ix.documents.find? id = some e → ∀ field,
    (e.fieldLengths.find? field).map UInt32.toNat =
      (fields.find? field).map fun text ↦ (a.tokens text field).length
  /-- And it lists its distinct terms, in ascending order. -/
  listed : ∀ id fields e, c.find? id = some fields → ix.documents.find? id = some e →
    e.terms.Pairwise (· < ·) ∧ ∀ term, term ∈ e.terms ↔ Occurs a term fields
  /-- The terms are those that occur in a document. -/
  terms : ∀ term, ix.hasTerm term = true ↔
    ∃ id fields, c.find? id = some fields ∧ Occurs a term fields
  /-- A term has postings, in the strict order of their documents. -/
  postings : ∀ term ps, ix.terms.find? term = some ps →
    ps ≠ [] ∧ ps.Pairwise fun p q ↦ p.doc < q.doc
  /-- There is a posting for each document with the term. -/
  docs : ∀ term id, (∃ p ∈ ix.postings term, p.doc = id) ↔
    ∃ fields, c.find? id = some fields ∧ Occurs a term fields
  /-- A posting has the fields in which the term occurs, by ascending name, each with the numbers
  of the words at which it occurs there. -/
  hits : ∀ term, ∀ p ∈ ix.postings term, ∀ fields, c.find? p.doc = some fields →
    (p.fields.Pairwise fun h h' ↦ h.field < h'.field) ∧ ∀ h, h ∈ p.fields ↔
      ∃ text, fields.find? h.field = some text ∧
        h.positions = (places a term text).map Nat.toUInt32 ∧ h.positions ≠ []
  /-- These numbers ascend, as long as the words of the text can be counted with 32 bits. -/
  ascending : ∀ term, ∀ p ∈ ix.postings term, ∀ h ∈ p.fields, ∀ fields text,
    c.find? p.doc = some fields → fields.find? h.field = some text →
      (a.orthography.words text).length ≤ 2 ^ 32 → h.positions.Pairwise (· < ·)
  /-- The frequency of a posting is how many they are. -/
  frequency : ∀ term, ∀ p ∈ ix.postings term,
    p.frequency.toNat = (p.fields.map fun h ↦ h.positions.length).sum
  /-- The number of all tokens. -/
  tokens : ix.tokens = ((c.values.map (size a)).sum).toUInt64

/-- The tokens of each document can be counted with words of 32 bits. -/
def Fits : Prop :=
  ∀ fields ∈ c.values, size a fields < 2 ^ 32

end Corpus

/-! ### Histories -/

namespace Document

/-- A document with which nothing is wrong: it has an identifier and at least one field, its fields
have names, and its texts stand a test. -/
def Meets (test : Bytes → Bool) (d : Document) : Prop :=
  d.id ≠ [] ∧ d.fields.entries ≠ [] ∧ ∀ f ∈ d.fields.entries, f.1 ≠ [] ∧ test f.2 = true

instance (test : Bytes → Bool) (d : Document) : Decidable (d.Meets test) :=
  inferInstanceAs (Decidable (_ ∧ _ ∧ _))

/-- A document that can be added: its texts are taken for well-formed. -/
def CanBeAdded (d : Document) : Prop :=
  d.Meets Utf8.passes

instance (d : Document) : Decidable d.CanBeAdded :=
  inferInstanceAs (Decidable (d.Meets _))

/-- What is wrong with a document, by what is looked at first: its identifier, that it has fields,
and then field by field, in their order, the name and the text. An empty name is the first. -/
inductive HasFault (test : Bytes → Bool) (d : Document) : IngestFault → Prop
  | emptyId (h : d.id = []) : HasFault test d .emptyId
  | noFields (hid : d.id ≠ []) (h : d.fields.entries = []) : HasFault test d (.noFields d.id)
  | emptyFieldName (hid : d.id ≠ []) (h : [] ∈ d.fields.keys) :
      HasFault test d (.emptyFieldName d.id)
  | illFormedText {before after : List (Bytes × Bytes)} {field text : Bytes} (hid : d.id ≠ [])
      (hnames : [] ∉ d.fields.keys) (hfields : d.fields.entries = before ++ (field, text) :: after)
      (hbefore : ∀ f ∈ before, test f.2 = true) (htext : test text = false) :
      HasFault test d (.illFormedText field d.id)

end Document

/-- A move in the life of an index. -/
inductive Move where
  | add (batch : List Document)
  | remove (id : Bytes)
  | clear
  /-- Goes back to the index that there was `n` moves ago; before the first move it was empty. -/
  | rewind (n : Nat)

namespace Move

/-- The change that a move makes to the latest of the indexes so far. -/
def change (past : List Index) : Move → Change
  | add batch => .add batch
  | remove id => .remove id
  | clear => .clear
  | rewind n => .restore (past.getD n .empty)

/-- The corpus that a move makes of the latest of the corpora so far. A batch with a document that
cannot be added is not added at all; in a batch a later document replaces an earlier one. -/
def corpus (past : List Corpus) : Move → Corpus
  | add batch =>
    if ∀ d ∈ batch, d.CanBeAdded then
      batch.foldl (fun c d ↦ c.insert d.id d.fields) (past.headD ∅)
    else past.headD ∅
  | remove id => (past.headD ∅).erase id
  | clear => ∅
  | rewind n => past.getD n ∅

/-- Every document that is added can be counted. -/
def Fits (a : Analyzer) : Move → Prop
  | add batch => ∀ d ∈ batch, Corpus.size a d.fields < 2 ^ 32
  | _ => True

end Move

/-- The indexes of a history, the latest first. The history begins with the empty index. -/
def Index.course (a : Analyzer) : List Move → List Index
  | [] => [.empty]
  | m :: earlier =>
    let past := course a earlier
    ((past.headD .empty).after a (m.change past)).1 :: past

/-- The corpora of a history, the latest first. The history begins with no documents. -/
def Corpus.course : List Move → List Corpus
  | [] => [∅]
  | m :: earlier => m.corpus (course earlier) :: course earlier

/-- The index at the end of a history. -/
def Index.atEnd (a : Analyzer) (history : List Move) : Index :=
  (course a history).headD .empty

/-- The corpus at the end of a history. -/
def Corpus.atEnd (history : List Move) : Corpus :=
  (course history).headD ∅

/-- The error with which a move fails after a history, if it does. -/
def Index.failure (a : Analyzer) (history : List Move) (m : Move) : Option Error :=
  ((atEnd a history).after a (m.change (course a history))).2

end Concordance
