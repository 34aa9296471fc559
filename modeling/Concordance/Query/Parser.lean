import Concordance.Query.Basic

/-!
# Reading queries

A query text is read by recursive descent. Clauses that stand side by side form a conjunction, a bar
(written once or twice) separates alternatives, a minus before a clause negates it, quotes enclose a
phrase, parentheses a group, and a star ends a wildcard:

```
disjunction := conjunction (bar conjunction)*
conjunction := clause+
clause      := '-'? primary
primary     := '"' text '"' | '(' disjunction ')' | word | word '*'
```

White space may stand between clauses and around bars and parentheses. Every function takes the
bytes that are left of the query and gives back those left after what it has read; `n` is the length
of the whole query, so that the offset of a point in the query is `n` less what is left there.

The two loops go on only while they use up the query. They always do: a clause has at least one
byte.
-/

namespace Concordance.Query.Parser

/-- Where in a query of `n` bytes the given bytes are left. -/
def offset (n : Nat) (s : Bytes) : Nat :=
  n - s.length

/-- A query that cannot be read. -/
def fail {α : Type} (fault : QueryFault) (position : Nat) : Except Error α :=
  .error (.query fault position)

/-- Whether no clause can begin here: at the end, at a bar, and at a closing parenthesis. -/
def endsClause : Bytes → Bool
  | [] => true
  | b :: _ => b == 124 || b == 41

/-- Bytes that may stand in a word: all but white space, quotes, parentheses and bars. -/
def isWordByte (b : UInt8) : Bool :=
  !Bytes.isSpace b && b != 34 && b != 40 && b != 41 && b != 124

/-- What follows a bar, which may be doubled, if there is one. -/
def afterBar? : Bytes → Option Bytes
  | 124 :: 124 :: s => some s
  | 124 :: s => some s
  | _ => none

/-- Several clauses under a common node; a single one stands for itself. -/
def gather (node : List Query → Query) : List Query → Query
  | [q] => q
  | qs => node qs

/-- A word, or a wildcard if it ends in a star. -/
def lexeme (n : Nat) (s : Bytes) : Except Error (Query × Bytes) :=
  let start := offset n s
  let text := s.takeWhile isWordByte
  let rest := s.dropWhile isWordByte
  if text.isEmpty then fail (.unexpected (s.headD 0)) start
  else
    match text.idxOf? 42 with
    | none => .ok (.word start text, rest)
    | some i =>
      if i + 1 ≠ text.length then fail .starInside (start + i)
      else if i = 0 then fail .emptyWildcard start
      else .ok (.wildcard start (text.take i), rest)

/-- A phrase that begins at offset `start`; `s` is what follows the opening quote. -/
def quotation (n start : Nat) (s : Bytes) : Except Error (Query × Bytes) :=
  let text := s.takeWhile (· != 34)
  match s.dropWhile (· != 34) with
  | [] => fail .openQuote start
  | _ :: rest =>
    if (Bytes.words text).isEmpty then fail .emptyPhrase start
    else if rest.head? == some 42 then fail .starAfterPhrase (offset n rest)
    else .ok (.phrase start text (Bytes.words text), rest)

mutual

/-- Alternatives; a single one stands for itself. -/
def disjunction (n : Nat) (s : Bytes) : Except Error (Query × Bytes) := do
  let (qs, rest) ← alternatives n s
  return (gather (.disj (offset n s)) qs, rest)
termination_by 6 * s.length + 5

/-- Conjunctions separated by bars. -/
def alternatives (n : Nat) (s : Bytes) : Except Error (List Query × Bytes) := do
  let (q, rest) ← conjunction n s
  let rest := Bytes.trimLeft rest
  match afterBar? rest with
  | none => return ([q], rest)
  | some t =>
    let next := Bytes.trimLeft t
    if endsClause next then fail .missingAlternative (offset n next)
    else if next.length < s.length then
      let (qs, rest) ← alternatives n next
      return (q :: qs, rest)
    else return ([q], next)
termination_by 6 * s.length + 4

/-- Clauses side by side; a single one stands for itself. -/
def conjunction (n : Nat) (s : Bytes) : Except Error (Query × Bytes) :=
  let t := Bytes.trimLeft s
  if endsClause t then
    match t with
    | [] => fail .missingClause (offset n t)
    | b :: _ => fail (.unexpected b) (offset n t)
  else do
    let (qs, rest) ← clauses n t
    return (gather (.conj (offset n t)) qs, rest)
termination_by 6 * s.length + 3
decreasing_by
  have := Bytes.length_trimLeft_le s
  omega

/-- Clauses as long as there are any. -/
def clauses (n : Nat) (s : Bytes) : Except Error (List Query × Bytes) :=
  let t := Bytes.trimLeft s
  if endsClause t then .ok ([], t)
  else do
    let (q, rest) ← clause n t
    if rest.length < t.length then
      let (qs, rest) ← clauses n rest
      return (q :: qs, rest)
    else return ([q], rest)
termination_by 6 * s.length + 2
decreasing_by
  all_goals
    have := Bytes.length_trimLeft_le s
    simp only [t] at *
    omega

/-- A clause, which a minus negates. -/
def clause (n : Nat) : Bytes → Except Error (Query × Bytes)
  | 45 :: t =>
    if endsClause t || t.head?.any Bytes.isSpace then fail .danglingMinus (offset n (45 :: t))
    else if t.head? == some 45 then fail .doubleNegation (offset n t)
    else do
      let (q, rest) ← primary n t
      return (.neg (offset n (45 :: t)) q, rest)
  | s => primary n s
termination_by s => 6 * s.length + 1

/-- A phrase, a group, a word or a wildcard. -/
def primary (n : Nat) : Bytes → Except Error (Query × Bytes)
  | 34 :: t => quotation n (offset n (34 :: t)) t
  | 40 :: t =>
    let start := offset n (40 :: t)
    let inner := Bytes.trimLeft t
    if inner.head? == some 41 then fail .emptyGroup start
    else if inner.isEmpty then fail .openGroup start
    else do
      let (q, rest) ← disjunction n inner
      match Bytes.trimLeft rest with
      | 41 :: rest => return (q, rest)
      | _ => fail .openGroup start
  | s => lexeme n s
termination_by s => 6 * s.length
decreasing_by
  have := Bytes.length_trimLeft_le t
  simp only [List.length_cons]
  omega

end

end Parser

/-- The query that a text means. -/
def parse (text : Bytes) : Except Error Query := do
  let n := text.length
  let s := Bytes.trimLeft text
  if s.isEmpty then Parser.fail .emptyQuery (Parser.offset n s)
  let (q, rest) ← Parser.disjunction n s
  match Bytes.trimLeft rest with
  | [] =>
    q.checkNegation false
    return q
  | b :: more =>
    Parser.fail (if b = 41 then .strayClose else .strayByte) (Parser.offset n (b :: more))

end Concordance.Query
