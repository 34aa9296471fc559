import Concordance.Session.Basic

/-!
# The command line

Reads the files that the arguments name, measures how long each query takes, and shows the answers
as they come.
-/

namespace Concordance.CommandLine

/-- The number by which the system says that a directory was read like a file. -/
def readsDirectory : UInt32 := 21

/-- A storage with what is at a path, if it can be opened. -/
def fetch (st : Storage) (path : Bytes) : IO Storage := do
  match String.fromUTF8? ⟨path.toArray⟩ with
  | none => return st
  | some name =>
    try
      let content ← IO.FS.readBinFile name
      return st.mount path (some content.data.toList)
    catch
      | .inappropriateType _ code _ =>
        return if code = readsDirectory then st.mount path none else st
      | _ => return st

/-- Shows something on standard output. -/
def put (s : Bytes) : IO Unit := do
  let out ← IO.getStdout
  out.write ⟨s.toArray⟩
  out.flush

/-- Shows something on standard error. -/
def putError (s : Bytes) : IO Unit := do
  let err ← IO.getStderr
  err.write ⟨s.toArray⟩
  err.flush

/-- Shows the answer to a query. Tells whether the session goes on. -/
def answer (s : Session) (query : Bytes) : IO Bool := do
  let start ← IO.monoNanosNow
  let reply ← IO.lazyPure fun _ ↦ s.reply query
  let stop ← IO.monoNanosNow
  let elapsed := Decimal.fixed 4 .computed ((stop - start).toFloat / 1000000)
  put (Session.logged s.verbose (s.engine.searchLog s.options elapsed query))
  match reply with
  | .ok r =>
    put (s.replyText elapsed query r)
    return true
  | .error e =>
    putError (Session.errorLine e.message)
    return false

/-- Answers the lines of the input as they come. -/
partial def converse (s : Session) : IO UInt32 := do
  put Session.prompt
  let line ← (← IO.getStdin).getLine
  let query := (utf8 line).takeWhile (· != 10)
  if line.isEmpty || Session.endsSession query then return 0
  if query.isEmpty then converse s
  else if ← answer s query then converse s
  else return 1

/-- Runs a session that could be started. -/
def serve (inv : Invocation) (s : Session) : IO UInt32 := do
  put (Session.logged inv.verbose [.loaded inv.indexPath s.engine.index])
  if inv.stats then put s.statsText
  let goesOn ← if inv.query.isEmpty then pure true else answer s inv.query
  if !goesOn then return 1
  if !inv.interactive then return 0
  put Session.banner
  converse s

/-- Ends a run with an error. -/
def fail (e : Error) : IO UInt32 := do
  putError (Session.errorLine e.message)
  return 1

/-- Makes an engine of settings, and runs its session. -/
def begin (inv : Invocation) (st : Storage) (settings : Settings) : IO UInt32 := do
  put (Session.logged inv.verbose (Engine.makingLog settings))
  match Engine.ofSettings settings with
  | .error e => fail e
  | .ok engine =>
    match engine.load st inv.indexPath with
    | .error e => fail e
    | .ok engine => serve inv (Session.ofEngine inv engine)

end Concordance.CommandLine

open Concordance in
/-- The program. -/
def main (args : List String) : IO UInt32 := do
  match Invocation.parse (args.map utf8) with
  | .error fault =>
    CommandLine.putError (Session.faultMessage fault)
    return 1
  | .ok inv =>
    let st ← CommandLine.fetch .empty inv.indexPath
    let st ← CommandLine.fetch st inv.settingsPath
    match Session.settings inv st with
    | .ok settings => CommandLine.begin inv st settings
    | .error e => CommandLine.fail e
