import Concordance.Engine

/-!
# A thesaurus

A thesaurus is a table of synonyms that can find the class of a term without a look at the classes:
beside the list of them it keeps a register, which has for each term the class that it is in. The
two are written one after the other, so they say the same only as long as no class is listed whose
terms are not registered, and no term is registered twice.
-/

namespace Concordance

/-- Classes of interchangeable terms, and a register of the terms. -/
structure Thesaurus where
  /-- The classes in the order in which they were defined. -/
  classes : List ByteSet
  /-- The class of each term that has one. -/
  register : Dict ByteSet

namespace Thesaurus

/-- The thesaurus without classes. -/
def empty : Thesaurus :=
  ⟨[], ∅⟩

/-- The class of a term. -/
def classOf (t : Thesaurus) (term : Bytes) : Option ByteSet :=
  t.register.find? term

/-- The terms that may stand for a term: its class, or itself alone. -/
def expand (t : Thesaurus) (term : Bytes) : ByteSet :=
  (t.classOf term).getD (.ofList [term])

/-- The register with a term of a class. A term that is registered already stays where it is. -/
def enter (members : ByteSet) (register : Dict ByteSet) (term : Bytes) : Dict ByteSet :=
  if register.contains term then register else register.insert term members

/-- The thesaurus with one more class. -/
def define (t : Thesaurus) (members : ByteSet) : Except Error Thesaurus :=
  if members.contains [] then .error (.settings .emptySynonym)
  else if members.size < 2 then .error (.settings .smallClass)
  else
    match members.toList.find? t.register.contains with
    | some term => .error (.settings (.overlappingClass term))
    | none => .ok ⟨t.classes ++ [members], members.toList.foldl (enter members) t.register⟩

/-- The thesaurus with one more class of synonyms, which are analyzed like texts. -/
def defineTexts (a : Analyzer) (t : Thesaurus) (texts : ByteSet) : Except Error Thesaurus := do
  let terms ← texts.toList.mapM (Engine.synonymTerm a)
  t.define (.ofList terms)

/-- The thesaurus after a class has been defined, or as it was if that failed. -/
def after (a : Analyzer) (t : Thesaurus) (texts : ByteSet) : Thesaurus :=
  match t.defineTexts a texts with
  | .ok next => next
  | .error _ => t

/-- The thesaurus after classes have been defined one after another, as far as they could be. -/
def ofCalls (a : Analyzer) (calls : List ByteSet) : Thesaurus :=
  calls.foldl (after a) empty

end Thesaurus

end Concordance
