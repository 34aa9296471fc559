import Concordance.Dict
import Concordance.Error

/-!
# Synonyms

A synonym table holds classes of interchangeable terms. A class is accepted only if its terms are
non-empty, there are at least two of them, and none is in a class already, so the classes of a
table are disjoint and a term has at most one.
-/

namespace Concordance

/-- Classes of interchangeable terms, in the order in which they were defined. -/
structure Synonyms where
  classes : List ByteSet
  deriving DecidableEq

namespace Synonyms

/-- The table without classes. -/
def empty : Synonyms :=
  ⟨[]⟩

/-- The class of a term. -/
def classOf (s : Synonyms) (term : Bytes) : Option ByteSet :=
  s.classes.find? (·.contains term)

/-- The terms that may stand for a term: its class, or itself alone. -/
def expand (s : Synonyms) (term : Bytes) : ByteSet :=
  (s.classOf term).getD (.ofList [term])

/-- The table with one more class. -/
def define (s : Synonyms) (members : ByteSet) : Except Error Synonyms :=
  if members.contains [] then .error (.settings .emptySynonym)
  else if members.size < 2 then .error (.settings .smallClass)
  else
    match members.toList.find? fun t ↦ (s.classOf t).isSome with
    | some t => .error (.settings (.overlappingClass t))
    | none => .ok ⟨s.classes ++ [members]⟩

/-- How many classes there are. -/
def size (s : Synonyms) : Nat :=
  s.classes.length

end Synonyms

end Concordance
