import Concordance.Error

/-!
# Queries

A query is a tree of clauses: words, wildcards (a word that only has to begin so), phrases, and
negations, conjunctions and alternatives of them. Each node knows where in the query text it begins.
Words are kept as they were written; they are analyzed when the query is evaluated.
-/

namespace Concordance

/-- A query. -/
inductive Query where
  | word (position : Nat) (text : Bytes)
  /-- A word that ends in a star: `start` is what stands before the star. -/
  | wildcard (position : Nat) (start : Bytes)
  /-- A phrase as written between the quotes, and its words. -/
  | phrase (position : Nat) (text : Bytes) (words : List Bytes)
  | neg (position : Nat) (operand : Query)
  | conj (position : Nat) (operands : List Query)
  | disj (position : Nat) (operands : List Query)
  deriving Repr

namespace Query

/-- Where in the query text a node begins. -/
def position : Query → Nat
  | word p _ | wildcard p _ | phrase p _ _ | neg p _ | conj p _ | disj p _ => p

/-- Whether a query is a negated clause. -/
def isNegation : Query → Bool
  | neg _ _ => true
  | _ => false

mutual

/-- A query in words. -/
def render : Query → Bytes
  | word _ text => text
  | wildcard _ start => start ++ utf8 "*"
  | phrase _ _ words => utf8 "PHRASE(" ++ Bytes.joined (utf8 " ") words ++ utf8 ")"
  | neg _ operand => utf8 "NOT(" ++ operand.render ++ utf8 ")"
  | conj _ operands => utf8 "AND(" ++ Bytes.joined (utf8 ", ") (renderAll operands) ++ utf8 ")"
  | disj _ operands => utf8 "OR(" ++ Bytes.joined (utf8 ", ") (renderAll operands) ++ utf8 ")"

/-- Queries in words. -/
def renderAll : List Query → List Bytes
  | [] => []
  | q :: qs => q.render :: renderAll qs

end

/-! ### Negation

A negated clause only takes documents away, so there must be something to take them from: it may
stand only in a conjunction that also has a clause that is not negated. -/

mutual

/-- The negation rule for a tree. `inConjunction` tells whether the tree is an operand of a
conjunction. -/
def checkNegation (inConjunction : Bool) : Query → Except Error Unit
  | neg position operand =>
    if inConjunction then operand.checkNegation false
    else .error (.query .loneNegation position)
  | conj position operands =>
    if operands.all isNegation then .error (.query .onlyNegations position)
    else checkNegations true operands
  | disj _ operands => checkNegations false operands
  | _ => .ok ()

/-- The negation rule for several trees, in order. -/
def checkNegations (inConjunction : Bool) : List Query → Except Error Unit
  | [] => .ok ()
  | q :: qs => do
    q.checkNegation inConjunction
    checkNegations inConjunction qs

end

end Query

end Concordance
