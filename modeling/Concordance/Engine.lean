import Concordance.Index.Update
import Concordance.Search.Evaluation
import Concordance.Query.Parser
import Concordance.Settings.Basic
import Concordance.Storage

/-!
# The search engine

An engine holds settings, the analyzer and the scorer that they describe, a table of synonyms and
the current index. Every change gives a new engine, or an error and then the old one stays; a search
changes nothing.
-/

namespace Concordance

/-- The analyzer that settings describe. -/
def Analyzer.ofSettings [Orthography] (settings : Settings) : Except Error Analyzer := do
  let stemmer ← Stemmer.named settings.stemmer
  let limits := settings.limits
  return ⟨limits.minLength.toNat, limits.maxLength.toNat, limits.dropStopWords, stemmer⟩

/-- The scorer that settings describe. -/
def Scorer.ofSettings (settings : Settings) : Except Error Scorer :=
  Scorer.named settings.search.scorer settings.search.k1 settings.search.b

/-- A search engine. -/
structure Engine where
  settings : Settings
  analyzer : Analyzer
  scorer : Scorer
  synonyms : Synonyms
  index : Index

/-- A page of results. -/
structure Page where
  /-- The number of all results. -/
  total : Nat
  /-- The results on the page. -/
  results : Matches

namespace Engine

/-- The one token of a synonym. -/
def synonymTerm (a : Analyzer) (text : Bytes) : Except Error Bytes :=
  match a.analyze true text with
  | [] => .error (.settings (.blankSynonym text))
  | [token] => .ok token.text
  | _ => .error (.settings (.compoundSynonym text))

/-- A table with one more class of synonyms, which are analyzed like texts. -/
def defineClass (a : Analyzer) (synonyms : Synonyms) (members : ByteSet) :
    Except Error Synonyms := do
  let terms ← members.toList.mapM (synonymTerm a)
  synonyms.define (.ofList terms)

/-- The engine that settings describe, with an empty index. -/
def ofSettings [Orthography] (settings : Settings) : Except Error Engine := do
  let analyzer ← Analyzer.ofSettings settings
  let scorer ← Scorer.ofSettings settings
  let synonyms ← settings.synonyms.foldlM (defineClass analyzer) .empty
  return ⟨settings, analyzer, scorer, synonyms, .empty⟩

/-- The engine with a batch of documents added. An empty batch is no change. -/
def ingest (e : Engine) (batch : List Document) : Except Error Engine :=
  if batch.isEmpty then .ok e
  else do
    let index ← e.index.add e.analyzer batch
    return { e with index }

/-- The engine without a document. An unknown document is no change. -/
def remove (e : Engine) (id : Bytes) : Except Error Engine := do
  match ← e.index.remove id with
  | some index => return { e with index }
  | none => return e

/-- The engine with one more class of synonyms. -/
def define (e : Engine) (members : ByteSet) : Except Error Engine := do
  let synonyms ← defineClass e.analyzer e.synonyms members
  return { e with synonyms }

/-- The options of a search unless told otherwise. -/
def defaultOptions (e : Engine) : SearchOptions :=
  { limit := e.settings.search.limit, maxDistance := e.settings.search.maxDistance }

/-- What a search of this engine works on. -/
def searcher (e : Engine) : Searcher :=
  ⟨e.index, e.analyzer, e.synonyms, e.scorer, e.settings.search.decay⟩

/-- The page of a ranking that begins after `offset` results and has at most `limit`. The end of the
page is found with words of 64 bits. -/
def page (ranking : Matches) (limit offset : UInt64) : Except Error Page :=
  let size := ranking.length.toUInt64
  let first := min offset size
  let last := min (first + limit) size
  if last < first then .error .pageTooLarge
  else
    .ok ⟨ranking.length, (ranking.drop first.toNat).take (last - first).toNat⟩

/-- The results of a query. -/
def search (e : Engine) (o : SearchOptions) (query : Bytes) : Except Error Page := do
  if o.limit = 0 then throw .limitNotPositive
  if o.maxDistance < 0 then throw .negativeSearchDistance
  let q ← Query.parse query
  let ranking ← e.searcher.evaluate o q
  page ranking o.limit o.offset

/-- The index saved at a path. -/
def save (e : Engine) (st : Storage) (path : Bytes) : Storage × Except Error Unit :=
  st.save e.index path true

/-- The engine with the index that is saved at a path. -/
def load (e : Engine) (st : Storage) (path : Bytes) : Except Error Engine := do
  let (_, index) ← st.load path
  return { e with index }

end Engine

end Concordance
