import Concordance.Decimal
import Concordance.Engine
import Concordance.Session.Invocation
import Concordance.Session.Log
import Concordance.Settings.Text
import Concordance.Text.Table

/-!
# A session on the command line

A session loads an index and answers queries: one given with the arguments, and, if it is
interactive, one from each line of the input up to a line that ends it. A malformed query is
answered by a pointer to what is wrong and the session goes on; any other error ends it.

What a query is answered by depends on the session and the query alone. The time it took is no
result, so its text comes from outside.

In which scripts texts are, in what syntax settings are written and how messages are logged is left
open; a program that imports this module has the tables of scripts, settings in JSON and no log.
-/

namespace Concordance

/-- What a run leaves behind. -/
structure Outcome where
  exit : Nat
  stdout : Bytes
  stderr : Bytes
  deriving DecidableEq, Repr

/-- A session in which queries can be answered. -/
structure Session where
  engine : Engine
  options : SearchOptions
  /-- Whether the log is heard. -/
  verbose : Bool := false

namespace Session

/-- How to call the program. -/
def usage : Bytes :=
  utf8 ("Usage: textsearch-query <index.tsx> [options]\n" ++
    "\nOptions:\n" ++
    "  -q QUERY       Single query\n" ++
    "  -i             Interactive mode\n" ++
    "  -l, --limit N  Results limit (default: 10)\n" ++
    "  --offset N     Skip the first N results\n" ++
    "  --fuzzy N      Maximum edit distance per term\n" ++
    "  --field NAME   Search only this field (repeatable)\n" ++
    "  --config PATH  YAML configuration (tokenizer, synonyms, scoring)\n" ++
    "  --explain      Show matched terms per field\n" ++
    "  --stats        Show statistics\n" ++
    "  --verbose      Debug logging\n")

/-- What is shown when an interactive session begins. -/
def banner : Bytes :=
  utf8 ("\nInteractive mode. Enter 'quit' to exit.\n" ++
    "Operators: space = AND, | = OR, -word = NOT, \"a b\" = phrase, pre* = prefix\n")

/-- What is shown before each line of input. -/
def prompt : Bytes :=
  utf8 "\n> "

/-- An error that ends a run, in words. -/
def errorLine (message : Bytes) : Bytes :=
  utf8 "Error: " ++ message ++ utf8 "\n"

/-- What is said about arguments that are wrong. -/
def faultMessage : ArgumentFault → Bytes
  | .usage => usage
  | .number => errorLine (utf8 "invalid numeric argument")

/-- The settings of a file. -/
def readSettings [SettingsSyntax] (st : Storage) (path : Bytes) : Except Error Settings :=
  match st.read path with
  | .ok text => Settings.parse (utf8 " file " ++ path) text
  | .error _ => .error (.settings (.unreadable path))

/-- The settings that the arguments ask for. -/
def settings [SettingsSyntax] (inv : Invocation) (st : Storage) : Except Error Settings :=
  if inv.settingsPath.isEmpty then .ok {} else readSettings st inv.settingsPath

/-- The session of an engine with its index. What the arguments leave open is taken from the
settings of the engine. -/
def ofEngine (inv : Invocation) (engine : Engine) : Session where
  engine := engine
  options :=
    { maxDistance := inv.maxDistance.getD engine.settings.search.maxDistance
      fields := inv.fields
      limit := inv.limit.getD engine.settings.search.limit
      offset := inv.offset
      explain := inv.explain }
  verbose := inv.verbose

/-- The session that the arguments ask for. -/
def start [Orthography] [SettingsSyntax] (inv : Invocation) (st : Storage) :
    Except Error Session := do
  let settings ← settings inv st
  let engine ← Engine.ofSettings settings
  let engine ← engine.load st inv.indexPath
  return ofEngine inv engine

/-- What messages show, if the log is heard. -/
def logged [Logger] (verbose : Bool) (messages : List LogMessage) : Bytes :=
  if verbose then messages.flatMap Logger.shown else []

/-- The figures of the index, a line each. -/
def statsText (s : Session) : Bytes :=
  let stats := s.engine.index.stats
  utf8 "Documents: " ++ decimal stats.documents ++ utf8 "\nTerms: " ++ decimal stats.terms ++
    utf8 "\nPostings: " ++ decimal stats.postings ++ utf8 "\nTokens: " ++
    decimal stats.tokens.toNat ++ utf8 "\n"

/-- The terms of one field of an explanation. -/
def explanationLine (e : Bytes × ByteSet) : Bytes :=
  utf8 "     " ++ e.1 ++ utf8 ":" ++ e.2.toList.flatMap (utf8 " " ++ ·) ++ utf8 "\n"

/-- A result with its number on the page. -/
def resultText (s : Session) (number : Nat) (m : Match) : Bytes :=
  decimal number ++ utf8 ". " ++ m.doc ++ utf8 "  " ++
    Decimal.fixed 4 s.engine.scorer.undefined m.score ++ utf8 "\n" ++
    if s.options.explain then m.explanation.entries.flatMap explanationLine else []

/-- The results of a page, the first of which has the given number. -/
def resultTexts (s : Session) (number : Nat) : Matches → Bytes
  | [] => []
  | m :: ms => s.resultText number m ++ s.resultTexts (number + 1) ms

/-- The answer to a query that has one. -/
def pageText (s : Session) (elapsed query : Bytes) (p : Page) : Bytes :=
  utf8 "\n=== Query: " ++ query ++ utf8 " ===\nFound: " ++ decimal p.total ++ utf8 " in " ++
    elapsed ++ utf8 " ms\n\n" ++ s.resultTexts 1 p.results

/-- The answer to a malformed query: what is wrong, and where. -/
def faultText (query : Bytes) (fault : QueryFault) (position : Nat) : Bytes :=
  utf8 "Syntax error: " ++ (Error.query fault position).message ++ utf8 "\n  " ++ query ++
    utf8 "\n  " ++ List.replicate position 32 ++ utf8 "^\n"

/-- The reply to a query. -/
inductive Reply where
  | page (p : Page)
  /-- The query is malformed. -/
  | fault (fault : QueryFault) (position : Nat)

/-- The reply to a query. An error that is not the fault of the query is none. -/
def reply (s : Session) (query : Bytes) : Except Error Reply :=
  match s.engine.search s.options query with
  | .ok p => .ok (.page p)
  | .error (.query fault position) => .ok (.fault fault position)
  | .error e => .error e

/-- What is shown as a reply. -/
def replyText (s : Session) (elapsed query : Bytes) : Reply → Bytes
  | .page p => s.pageText elapsed query p
  | .fault fault position => faultText query fault position

/-- What is shown in answer to a query. -/
def answer (s : Session) (elapsed query : Bytes) : Except Error Bytes :=
  (s.reply query).map (s.replyText elapsed query)

/-- Whether a line of input ends the session. -/
def endsSession (line : Bytes) : Bool :=
  line == utf8 "quit" || line == utf8 "exit"

/-- What is shown when a query is asked: what is logged, and then the answer. -/
def asked [Logger] (s : Session) (elapsed query : Bytes) : List (Except Error Bytes) :=
  [.ok (logged s.verbose (s.engine.searchLog s.options elapsed query)), s.answer elapsed query]

/-- What is shown for one line of input. An empty line is passed over. -/
def lineAsked [Logger] (s : Session) (elapsed line : Bytes) : List (Except Error Bytes) :=
  if line.isEmpty then [] else s.asked elapsed line

/-- What is shown before the input is read. -/
def opening [Logger] (s : Session) (inv : Invocation) (elapsed : Bytes) :
    List (Except Error Bytes) :=
  (if inv.stats then [.ok s.statsText] else []) ++
    (if inv.query.isEmpty then [] else s.asked elapsed inv.query)

/-- What is shown for the lines of input of an interactive session. -/
def conversation [Logger] (s : Session) (elapsed input : Bytes) : List (Except Error Bytes) :=
  .ok banner ::
    ((Bytes.lines input).takeWhile (!endsSession ·)).flatMap (fun line ↦
      .ok prompt :: s.lineAsked elapsed line) ++ [.ok prompt]

/-- What is shown when an engine has been made for the arguments. -/
def serve [Logger] (elapsed : Bytes) (inv : Invocation) (st : Storage) (input : Bytes)
    (engine : Engine) : List (Except Error Bytes) :=
  match engine.load st inv.indexPath with
  | .error e => [.error e]
  | .ok engine =>
    let s := ofEngine inv engine
    .ok (logged inv.verbose [.loaded inv.indexPath engine.index]) :: s.opening inv elapsed ++
      if inv.interactive then s.conversation elapsed input else []

/-- The outcome of showing one thing after another. The first error ends it. -/
def outcome : List (Except Error Bytes) → Outcome
  | [] => ⟨0, [], []⟩
  | .ok shown :: rest =>
    let later := outcome rest
    { later with stdout := shown ++ later.stdout }
  | .error e :: _ => ⟨1, [], errorLine e.message⟩

/-- A whole run. `elapsed` is the text for the time that a query takes. -/
def run [Orthography] [SettingsSyntax] [Logger] (elapsed : Bytes) (st : Storage) (args : List Bytes)
    (input : Bytes) : Outcome :=
  match Invocation.parse args with
  | .error fault => ⟨1, [], faultMessage fault⟩
  | .ok inv =>
    outcome <|
      match settings inv st with
      | .error e => [.error e]
      | .ok settings =>
        .ok (logged inv.verbose (Engine.makingLog settings)) ::
          match Engine.ofSettings settings with
          | .error e => [.error e]
          | .ok engine => serve elapsed inv st input engine

end Session

end Concordance
