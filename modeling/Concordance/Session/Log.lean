import Concordance.Engine

/-!
# The log of a session

What an engine does is told to a log, message by message, each with a level. Which levels are heard
is settled once for a run: all of them if it is verbose, and else only warnings, of which there are
none. How a message that is heard is shown is up to the logger; the usual one writes to standard
output, among the answers.
-/

namespace Concordance

/-- How much a message matters. -/
inductive LogLevel where
  | debug
  | info
  deriving DecidableEq, Repr

/-- A message to the log. -/
structure LogMessage where
  level : LogLevel
  text : Bytes
  deriving DecidableEq, Repr

/-- A way to log. The time at which a message is logged is no result, so it is left out. -/
class Logger where
  /-- What a message that is heard shows on standard output. -/
  shown : LogMessage → Bytes

/-- The program runs without a log. -/
instance silentLogger : Logger where
  shown _ := []

namespace LogMessage

/-- A class of synonyms has been defined. -/
def defined (number size : Nat) : LogMessage :=
  ⟨.debug, utf8 "Defined synonym class #" ++ decimal number ++ utf8 " with " ++ decimal size ++
    utf8 " terms"⟩

/-- An engine has been made. -/
def ready (e : Engine) : LogMessage :=
  ⟨.info, utf8 "Search engine ready: stemmer=" ++ e.analyzer.stemmer.elim (utf8 "none") (·.name) ++
    utf8 ", scorer=" ++ e.scorer.name ++ utf8 ", " ++ decimal e.synonyms.size ++
    utf8 " synonym class(es)"⟩

/-- An index has been loaded from a path. -/
def loaded (path : Bytes) (ix : Index) : LogMessage :=
  ⟨.info, utf8 "Loaded snapshot " ++ path ++ utf8 ": " ++ decimal ix.documents.size ++
    utf8 " documents, " ++ decimal ix.terms.size ++ utf8 " terms, version " ++
    decimal ix.version.toNat⟩

/-- A query is about to be evaluated. -/
def evaluating (q : Query) (ix : Index) : LogMessage :=
  ⟨.debug, utf8 "Evaluating " ++ q.render ++ utf8 " against index version " ++
    decimal ix.version.toNat⟩

/-- A query has been answered with so many results. -/
def answered (elapsed query : Bytes) (total : Nat) : LogMessage :=
  ⟨.debug, utf8 "Query '" ++ query ++ utf8 "': " ++ decimal total ++ utf8 " match(es) in " ++
    elapsed ++ utf8 " ms"⟩

end LogMessage

namespace Engine

/-- What is logged while classes of synonyms are defined, up to the first that is refused. -/
def definingLog (a : Analyzer) (synonyms : Synonyms) : List ByteSet → List LogMessage
  | [] => []
  | members :: rest =>
    match defineClass a synonyms members with
    | .ok more =>
      .defined more.size ((more.classes.getLast?.map Dict.size).getD 0) :: definingLog a more rest
    | .error _ => []

/-- What is logged while an engine is made of settings. -/
def makingLog [Orthography] (settings : Settings) : List LogMessage :=
  match Analyzer.ofSettings settings, Scorer.ofSettings settings with
  | .ok a, .ok _ =>
    definingLog a .empty settings.synonyms ++
      match ofSettings settings with
      | .ok e => [.ready e]
      | .error _ => []
  | _, _ => []

/-- What is logged during a search. -/
def searchLog (e : Engine) (o : SearchOptions) (elapsed query : Bytes) : List LogMessage :=
  if o.limit = 0 ∨ o.maxDistance < 0 then []
  else
    match Query.parse query with
    | .error _ => []
    | .ok q =>
      .evaluating q e.index ::
        match e.search o query with
        | .ok page => [.answered elapsed query page.total]
        | .error _ => []

end Engine

end Concordance
