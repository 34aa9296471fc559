import Concordance.Dict
import Concordance.Settings.Scalar

/-!
# Command line arguments

The first argument is the path of the index; the others are options, some with a value in the next
argument. They are read from left to right, and the first that is wrong decides what is said.
-/

namespace Concordance

/-- What is wrong with the arguments. -/
inductive ArgumentFault where
  /-- An unknown option, or one whose value is missing. -/
  | usage
  /-- A value that should be a number. -/
  | number
  deriving DecidableEq, Repr

/-- What the arguments ask for. -/
structure Invocation where
  /-- The path of the index. -/
  indexPath : Bytes
  /-- A query to be answered first; the empty one is none. -/
  query : Bytes := []
  /-- The path of the settings; the empty one is none. -/
  settingsPath : Bytes := []
  interactive : Bool := false
  stats : Bool := false
  explain : Bool := false
  fields : ByteSet := ∅
  offset : UInt64 := 0
  /-- The limit, if one is given. -/
  limit : Option UInt64 := none
  /-- The greatest edit distance, if one is given. -/
  maxDistance : Option Int32 := none
  /-- Whether the log is heard. -/
  verbose : Bool := false

namespace Invocation

/-- The whole number that a text begins with, after white space and a sign. What follows the digits
is ignored. -/
def leadingInt? (s : Bytes) : Option Int := do
  let (negative, s) := Scalar.sign (Bytes.trimLeft s)
  let (n, _) ← Scalar.digits? 10 s
  return if negative then -(n : Int) else n

/-- A count of 64 bits. A minus wraps around. -/
def count (s : Bytes) : Except ArgumentFault UInt64 :=
  match leadingInt? s with
  | some n =>
    let size := n.natAbs.toUInt64
    if size.toNat ≠ n.natAbs then .error .number
    else .ok (if n < 0 then 0 - size else size)
  | none => .error .number

/-- A number of 32 bits. -/
def int32 (s : Bytes) : Except ArgumentFault Int32 :=
  match leadingInt? s with
  | some n => if (Int32.ofInt n).toInt = n then .ok (.ofInt n) else .error .number
  | none => .error .number

/-- An option that stands alone. -/
def flag? (inv : Invocation) (name : Bytes) : Option Invocation :=
  if name = utf8 "-i" then some { inv with interactive := true }
  else if name = utf8 "--explain" then some { inv with explain := true }
  else if name = utf8 "--stats" then some { inv with stats := true }
  else if name = utf8 "--verbose" then some { inv with verbose := true }
  else none

/-- An option with a value. -/
def valued (inv : Invocation) (name value : Bytes) : Except ArgumentFault Invocation :=
  if name = utf8 "-q" then .ok { inv with query := value }
  else if name = utf8 "-l" ∨ name = utf8 "--limit" then do
    let n ← count value
    return { inv with limit := some n }
  else if name = utf8 "--offset" then do
    let n ← count value
    return { inv with offset := n }
  else if name = utf8 "--fuzzy" then do
    let n ← int32 value
    return { inv with maxDistance := some n }
  else if name = utf8 "--field" then .ok { inv with fields := inv.fields.insert value () }
  else if name = utf8 "--config" then .ok { inv with settingsPath := value }
  else .error .usage

/-- The options after the path. -/
def options (inv : Invocation) : List Bytes → Except ArgumentFault Invocation
  | [] => .ok inv
  | name :: rest =>
    match inv.flag? name with
    | some inv => inv.options rest
    | none =>
      match rest with
      | value :: rest => do
        let inv ← inv.valued name value
        inv.options rest
      | [] => .error .usage

/-- What the arguments ask for. An argument ends at its first zero byte. -/
def parse (args : List Bytes) : Except ArgumentFault Invocation :=
  match args.map (·.takeWhile (· != 0)) with
  | [] => .error .usage
  | path :: rest => options { indexPath := path } rest

end Invocation

end Concordance
