import Concordance.Dict

/-!
# Settings

What can be configured: how texts are analyzed, what a search does unless told otherwise, the
synonyms, and from where documents are fetched. Every setting has a default.
-/

namespace Concordance

/-- The limits on terms. -/
structure TermLimits where
  minLength : UInt64 := 1
  maxLength : UInt64 := 64
  dropStopWords : Bool := false

/-- What a search does unless told otherwise. -/
structure SearchDefaults where
  limit : UInt64 := 10
  maxDistance : Int32 := 0
  /-- The name of the scorer. -/
  scorer : Bytes := utf8 "tfidf"
  k1 : Float := 1.2
  b : Float := 0.75
  /-- The weight of a match is multiplied by this for each edit. -/
  decay : Float := 0.5

/-- Where documents are fetched from. -/
structure SourceSettings where
  host : Bytes := utf8 "localhost"
  portNumber : Int32 := 27017
  database : Bytes := []
  collection : Bytes := []
  username : Bytes := []
  password : Bytes := []
  idField : Bytes := utf8 "_id"
  fields : List Bytes := []
  batchSize : UInt64 := 500

/-- All settings. -/
structure Settings where
  limits : TermLimits := {}
  /-- The name of the stemmer. -/
  stemmer : Bytes := utf8 "none"
  search : SearchDefaults := {}
  synonyms : List ByteSet := []
  source : SourceSettings := {}

end Concordance
