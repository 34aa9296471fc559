import Concordance.Analyzer.Basic
import Concordance.Fuzzy
import Concordance.Matches
import Concordance.Scorer
import Concordance.Synonyms

/-!
# What a search works on

A search is made on one index, with the analyzer, the synonyms and the scorer of the engine, and
with options of its own: the fields that count, how far a term may be from the one asked for, and
whether the matched terms are to be named.
-/

namespace Concordance

/-- The options of a search. -/
structure SearchOptions where
  /-- The greatest edit distance of a term from the one asked for. -/
  maxDistance : Int32 := 0
  /-- The fields that count; none means every field. -/
  fields : ByteSet := ∅
  /-- The greatest number of results on a page. -/
  limit : UInt64 := 10
  /-- The number of results before the page. -/
  offset : UInt64 := 0
  /-- Whether the matched terms are named. -/
  explain : Bool := false
  /-- Whether the search has been called off. -/
  cancelled : Bool := false

namespace SearchOptions

/-- Whether a field counts. -/
def admits (o : SearchOptions) (field : Bytes) : Bool :=
  o.fields.isEmpty || o.fields.contains field

end SearchOptions

/-- Everything that a search looks at. -/
structure Searcher where
  index : Index
  analyzer : Analyzer
  synonyms : Synonyms
  scorer : Scorer
  /-- The weight of a match is multiplied by this for each edit. -/
  decay : Float

namespace Searcher

/-- How often a term occurs in the fields of a posting that count. -/
def frequency (o : SearchOptions) (p : Posting) : UInt32 :=
  if o.fields.isEmpty then p.frequency
  else hitCount (p.fields.filter fun h ↦ o.admits h.field)

/-- The number of tokens in the fields of a document that count. The document of a posting has to be
in the index. -/
def documentLength (s : Searcher) (o : SearchOptions) (id : Bytes) : Except Error UInt32 :=
  match s.index.documents.find? id with
  | none => .error (.index (.danglingPosting id))
  | some entry => .ok (if o.fields.isEmpty then entry.length else entry.lengthWhere o.admits)

/-- The statistics of a term with the given postings. -/
def termStatistics (s : Searcher) (postings : Postings) : TermStatistics :=
  ⟨postings.length.toUInt64, s.index.documents.size.toUInt64⟩

/-- The statistics of a document in which a term or phrase occurs `frequency` times. -/
def documentStatistics (s : Searcher) (o : SearchOptions) (id : Bytes) (frequency : UInt32) :
    Except Error DocumentStatistics := do
  let length ← s.documentLength o id
  return ⟨frequency, length, s.index.averageLength⟩

end Searcher

end Concordance
