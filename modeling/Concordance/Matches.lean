import Concordance.Dict

/-!
# Match lists

A match is a document that satisfies a part of a query, with its score and, if asked for, the terms
that matched in each field. Match lists are in the strict order of document identifiers, and the
operations on them are single merges: both lists are read from the front, and the smaller document
goes first.
-/

namespace Concordance

/-- For each field the terms that matched in it. -/
abbrev Explanation := Dict ByteSet

namespace Explanation

/-- The explanation with more terms for one field. -/
def addTerms (x : Explanation) (field : Bytes) (terms : ByteSet) : Explanation :=
  Dict.insert x field (((Dict.find? x field).getD ∅).union terms)

/-- For each field the terms of both explanations. -/
def union (x y : Explanation) : Explanation :=
  (Dict.entries y).foldl (fun x e ↦ addTerms x e.1 e.2) x

end Explanation

/-- A document that matches, and how well. -/
structure Match where
  doc : Bytes
  score : Float
  explanation : Explanation

/-- Matches, by ascending document identifier. -/
abbrev Matches := List Match

namespace Match

/-- One document matched twice: the scores are added, the explanations united. -/
def absorb (m n : Match) : Match :=
  ⟨m.doc, m.score + n.score, m.explanation.union n.explanation⟩

end Match

namespace Matches

/-- The documents of both lists. -/
def intersect : Matches → Matches → Matches
  | m :: ms, n :: ns =>
    if m.doc < n.doc then intersect ms (n :: ns)
    else if n.doc < m.doc then intersect (m :: ms) ns
    else m.absorb n :: intersect ms ns
  | _, _ => []
termination_by a b => a.length + b.length

/-- The documents of either list. -/
def unite : Matches → Matches → Matches
  | m :: ms, n :: ns =>
    if m.doc < n.doc then m :: unite ms (n :: ns)
    else if n.doc < m.doc then n :: unite (m :: ms) ns
    else m.absorb n :: unite ms ns
  | [], ns => ns
  | ms, [] => ms
termination_by a b => a.length + b.length

/-- The documents of the first list that are not in the second. -/
def subtract : Matches → Matches → Matches
  | m :: ms, n :: ns =>
    if n.doc < m.doc then subtract (m :: ms) ns
    else if m.doc < n.doc then m :: subtract ms (n :: ns)
    else subtract ms (n :: ns)
  | ms, [] => ms
  | [], _ => []
termination_by a b => a.length + b.length

/-- Neighbouring lists united, and an odd one left over. -/
def uniteNeighbours : List Matches → List Matches
  | a :: b :: rest => unite a b :: uniteNeighbours rest
  | rest => rest

/-- A round of uniting neighbours leaves no more lists than before. -/
theorem length_uniteNeighbours_le (lists : List Matches) :
    (uniteNeighbours lists).length ≤ lists.length := by
  fun_induction uniteNeighbours lists with
  | case1 a b rest ih => simp only [List.length_cons]; omega
  | case2 => exact Nat.le_refl _

/-- The documents of any of the lists, united in rounds like a balanced tree. -/
def uniteAll : List Matches → Matches
  | [] => []
  | [a] => a
  | a :: b :: rest => uniteAll (unite a b :: uniteNeighbours rest)
termination_by lists => lists.length
decreasing_by
  have := length_uniteNeighbours_le rest
  simp only [List.length_cons]
  omega

/-- Whether the documents are in strictly ascending order. -/
def isOrdered : Matches → Bool
  | m :: n :: rest => m.doc < n.doc && isOrdered (n :: rest)
  | _ => true

end Matches

end Concordance
