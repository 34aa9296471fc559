import Concordance.Error
import Concordance.Settings.Basic
import Concordance.Settings.Node
import Concordance.Settings.Scalar

/-!
# Reading settings

The sections of the settings are read in a fixed order, and in each section first every value and
then what the values have to satisfy together; the first thing that is wrong is reported. What is
not given keeps its default, also where the section itself is given as nothing or as a list. A
scalar is no section.
-/

namespace Concordance.Settings

/-- The value of a setting in a section: the fallback if it is not given. -/
def value {α : Type} (node : SettingsNode) (part key : String)
    (read : SettingsNode → Option α) (fallback : α) : Except Error α :=
  match node with
  | .scalar _ => .error (.settings .scalarSection)
  | _ =>
    match node.find? (utf8 key) with
    | none | some .null => .ok fallback
    | some given =>
      match read given with
      | some a => .ok a
      | none => .error (.settings (.invalidValue (utf8 part) (utf8 key)))

/-- A scalar whose text is read in some way. -/
def scalar {α : Type} (read : Bytes → Option α) (node : SettingsNode) : Option α :=
  node.text?.bind read

/-- The section on the analysis of texts: the limits on terms and the name of the stemmer. -/
def readTokenizer (node : SettingsNode) (s : Settings) : Except Error Settings := do
  let minLength ← value node "tokenizer" "min_length" (scalar Scalar.count?) s.limits.minLength
  let maxLength ← value node "tokenizer" "max_length" (scalar Scalar.count?) s.limits.maxLength
  let dropStopWords ←
    value node "tokenizer" "remove_stopwords" (scalar Scalar.bool?) s.limits.dropStopWords
  let stemmer ← value node "tokenizer" "stemmer" (scalar some) s.stemmer
  if minLength = 0 ∨ maxLength < minLength then throw (.settings .lengthLimits)
  if !(["none", "english", "russian"].map utf8).contains stemmer then
    throw (.settings (.unknownStemmer stemmer))
  return { s with limits := { minLength, maxLength, dropStopWords }, stemmer }

/-- The section on searches. -/
def readSearch (node : SettingsNode) (s : SearchDefaults) : Except Error SearchDefaults := do
  let limit ← value node "search" "limit" (scalar Scalar.int64?) s.limit.toInt64
  let maxDistance ← value node "search" "max_fuzzy_distance" (scalar Scalar.int32?) s.maxDistance
  let scorer ← value node "search" "scorer" (scalar some) s.scorer
  let k1 ← value node "search" "bm25_k1" (scalar Scalar.float?) s.k1
  let b ← value node "search" "bm25_b" (scalar Scalar.float?) s.b
  let decay ← value node "search" "fuzzy_decay" (scalar Scalar.float?) s.decay
  if limit ≤ 0 then throw (.settings .limitNotPositive)
  if maxDistance < 0 then throw (.settings .negativeDistance)
  if !(["tfidf", "bm25"].map utf8).contains scorer then
    throw (.settings (.unknownScorer scorer))
  if decay ≤ 0 ∨ decay > 1 then throw (.settings .decayRange)
  return { limit := limit.toUInt64, maxDistance, scorer, k1, b, decay }

/-- A class of synonyms. -/
def readClass : SettingsNode → Except Error ByteSet
  | .list items =>
    match items.mapM SettingsNode.text? with
    | some terms => .ok (.ofList terms)
    | none => .error (.settings .termNotText)
  | _ => .error (.settings .classNotList)

/-- The synonyms, a list of classes. -/
def readSynonyms : SettingsNode → Except Error (List ByteSet)
  | .list items => items.mapM readClass
  | _ => .error (.settings .synonymsNotList)

/-- The section on the source of documents. -/
def readSource (node : SettingsNode) (s : SourceSettings) : Except Error SourceSettings := do
  let host ← value node "db" "host" (scalar some) s.host
  let portNumber ← value node "db" "port" (scalar Scalar.int32?) s.portNumber
  let database ← value node "db" "database" (scalar some) s.database
  let collection ← value node "db" "collection" (scalar some) s.collection
  let username ← value node "db" "username" (scalar some) s.username
  let password ← value node "db" "password" (scalar some) s.password
  let idField ← value node "db" "id_field" (scalar some) s.idField
  let fields ← value node "db" "fields" SettingsNode.texts? s.fields
  let batchSize ← value node "db" "batch_size" (scalar Scalar.count?) s.batchSize
  if batchSize = 0 then throw (.settings .batchSizeNotPositive)
  return { host, portNumber, database, collection, username, password, idField, fields,
           batchSize }

/-- All settings. Nothing at all stands for the defaults. -/
def ofNode (node : SettingsNode) : Except Error Settings :=
  match node with
  | .null => .ok {}
  | .mapping _ => do
    let mut s : Settings := {}
    if let some part := node.find? (utf8 "tokenizer") then
      s ← readTokenizer part s
    if let some part := node.find? (utf8 "search") then
      let search ← readSearch part s.search
      s := { s with search }
    if let some part := node.find? (utf8 "synonyms") then
      let synonyms ← readSynonyms part
      s := { s with synonyms }
    if let some part := node.find? (utf8 "db") then
      let source ← readSource part s.source
      s := { s with source }
    return s
  | _ => .error (.settings .rootNotMapping)

/-- The settings that a text means. `source` goes into the message if it means none. -/
def parse [SettingsSyntax] (source text : Bytes) : Except Error Settings :=
  match SettingsSyntax.parse text with
  | .ok node => ofNode node
  | .error reason => .error (.settings (.malformed source reason))

end Concordance.Settings
