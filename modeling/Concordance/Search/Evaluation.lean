import Concordance.Query.Basic
import Concordance.Search.Phrase
import Concordance.Search.Ranking
import Concordance.Search.Term

/-!
# Evaluating queries

A query is evaluated clause by clause to the documents that match it. A conjunction intersects its
clauses and takes away what its negated clauses match, and stops once nothing is left. The matches
of the whole query are then ranked: higher scores first, and documents of equal score by identifier.
-/

namespace Concordance

namespace Searcher

/-- The documents of a word: of the terms it stands for, or of a phrase if it has several tokens. -/
def matchWord (s : Searcher) (o : SearchOptions) (text : Bytes) : Except Error Matches :=
  match s.analyzer.analyze true text with
  | [] => .ok []
  | [token] => s.matchExpansion o token.text
  | tokens => s.matchPhrase o tokens

/-- The documents of a wildcard, which must be a single word. -/
def matchWildcard (s : Searcher) (o : SearchOptions) (position : Nat) (start : Bytes) :
    Except Error Matches :=
  match s.analyzer.analyze false start with
  | [] => .ok []
  | [token] => s.matchBeginning o token.text
  | _ => .error (.query .compoundWildcard position)

/-- A search that has been called off goes no further. -/
def checkpoint (o : SearchOptions) : Except Error Unit :=
  if o.cancelled then .error .cancelled else .ok ()

mutual

/-- The documents that match a query. -/
def matches? (s : Searcher) (o : SearchOptions) : Query → Except Error Matches
  | .word _ text => do
    checkpoint o
    s.matchWord o text
  | .phrase _ text _ => do
    checkpoint o
    s.matchPhrase o (s.analyzer.analyze true text)
  | .wildcard position start => do
    checkpoint o
    s.matchWildcard o position start
  | .neg position _ => do
    checkpoint o
    .error (.query .loneNegation position)
  | .conj position operands => do
    checkpoint o
    match ← s.positives o none operands with
    | none => .error (.query .onlyNegations position)
    | some found => s.withoutNegatives o found operands
  | .disj _ operands => do
    checkpoint o
    let lists ← s.each o operands
    return .uniteAll lists

/-- The documents of all operands that are not negated, intersected with those found so far. Once
nothing is left the other operands are not looked at. -/
def positives (s : Searcher) (o : SearchOptions) (found : Option Matches) :
    List Query → Except Error (Option Matches)
  | [] => .ok found
  | .neg _ _ :: rest => s.positives o found rest
  | q :: rest =>
    match found with
    | none => do
      let first ← s.matches? o q
      s.positives o (some first) rest
    | some [] => .ok (some [])
    | some ms => do
      let more ← s.matches? o q
      s.positives o (some (ms.intersect more)) rest

/-- The documents found less those of the negated operands. Once nothing is left the other operands
are not looked at. -/
def withoutNegatives (s : Searcher) (o : SearchOptions) (found : Matches) :
    List Query → Except Error Matches
  | [] => .ok found
  | .neg _ q :: rest =>
    match found with
    | [] => .ok []
    | ms => do
      let fewer ← s.matches? o q
      s.withoutNegatives o (ms.subtract fewer) rest
  | _ :: rest => s.withoutNegatives o found rest

/-- The documents of each operand. -/
def each (s : Searcher) (o : SearchOptions) : List Query → Except Error (List Matches)
  | [] => .ok []
  | q :: rest => do
    let ms ← s.matches? o q
    let later ← s.each o rest
    return ms :: later

end

/-- The ranked documents that match a query. -/
def evaluate (s : Searcher) (o : SearchOptions) (q : Query) : Except Error Matches := do
  q.checkNegation false
  let found ← s.matches? o q
  if found.isOrdered then return found.ranked else .error (.index .unorderedMatches)

end Searcher

end Concordance
