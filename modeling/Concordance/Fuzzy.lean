import Concordance.EditDistance
import Concordance.Text.Utf8
import Concordance.Index.Basic

/-!
# Terms near a term

The terms of an index within a given edit distance of a term, in ascending order. A term of the
index is compared in full only if its length is near enough; its length is the number of bytes in
it that begin a character, which for well-formed terms is its length in characters.

A search can be called off. A scan over the terms looks for that after every `checkInterval` terms.

`Index.near` computes with natural numbers. `Index.near32?` is the same with signed words of 32
bits: what a length in 32 bits does not reach of a term is not looked at, and where a number is too
great for such a word there is no result.
-/

namespace Concordance

/-- A term of the index and its distance. -/
structure NearTerm where
  term : Bytes
  distance : Int32
  deriving DecidableEq, Repr

namespace Fuzzy

/-- How many terms are scanned between two looks at whether the search has been called off. -/
def checkInterval : Nat := 1024

/-- The distance of a term of the index, if its length is near enough for it to be computed. -/
def distance? (term : Bytes) (bound : Int32) (candidate : Bytes) : Option Int32 :=
  let query := Utf8.decodeLossy term
  if bound.toInt < ((Utf8.leadCount candidate : Int) - query.length).natAbs then none
  else if candidate = term then some 0
  else some (EditDistance.bounded query (Utf8.decodeLossy candidate) bound)

/-- A term of the index, if it is within the distance. -/
def near? (term : Bytes) (bound : Int32) (candidate : Bytes) : Option NearTerm :=
  ((distance? term bound candidate).filter (· ≤ bound)).map (⟨candidate, ·⟩)

end Fuzzy

namespace Index

/-- The terms of an index within a distance of a term. `cancelled` tells whether the search has
been called off. -/
def near (ix : Index) (term : Bytes) (bound : Int32) (cancelled : Bool) :
    Except Error (List NearTerm) :=
  if bound < 0 then .error .negativeDistance
  else if bound = 0 then .ok (if ix.hasTerm term then [⟨term, 0⟩] else [])
  else if cancelled && Fuzzy.checkInterval ≤ ix.terms.size then .error .cancelled
  else .ok (ix.terms.keys.filterMap (Fuzzy.near? term bound))

/-- The set of the terms within a distance of a term. -/
def expandNear (ix : Index) (term : Bytes) (bound : Int32) (cancelled : Bool) :
    Except Error ByteSet := do
  let found ← ix.near term bound cancelled
  return .ofList (found.map (·.term))

end Index

/-! ### With words of 32 bits -/

namespace Fuzzy

/-- The characters of a term, as far as its length in 32 bits reaches. -/
def chars32 (term : Bytes) : List Char :=
  Utf8.decodeLossy (reached term)

/-- The distance of a term of the index, if its length is near enough, computed with words of 32
bits. -/
def distance32? (term : Bytes) (bound : Int32) (candidate : Bytes) : Option (Option Int32) :=
  let query := chars32 term
  if bound.toInt < ((Utf8.leadCount candidate : Int) - query.length).natAbs then some none
  else if candidate = term then some (some 0)
  else (EditDistance.bounded? Int32 query (chars32 candidate) bound).map some

/-- A term of the index, if it is within the distance. -/
def near32? (term : Bytes) (bound : Int32) (candidate : Bytes) : Option (Option NearTerm) :=
  (distance32? term bound candidate).map fun distance ↦
    (distance.filter (· ≤ bound)).map (⟨candidate, ·⟩)

end Fuzzy

namespace Index

/-- What a scan over all terms of an index finds near a term with words of 32 bits. -/
def scan32? (ix : Index) (term : Bytes) (bound : Int32) : Option (List NearTerm) := do
  let found ← ix.terms.keys.mapM (Fuzzy.near32? term bound)
  return found.filterMap id

/-- The terms of an index within a distance of a term, found with words of 32 bits by a search that
is not called off. -/
def near32? (ix : Index) (term : Bytes) (bound : Int32) : Option (Except Error (List NearTerm)) :=
  if bound < 0 then some (.error .negativeDistance)
  else if bound = 0 then some (.ok (if ix.hasTerm term then [⟨term, 0⟩] else []))
  else (ix.scan32? term bound).map .ok

/-- The set of the terms that are found in this way. -/
def expandNear32? (ix : Index) (term : Bytes) (bound : Int32) : Option (Except Error ByteSet) :=
  (ix.near32? term bound).map fun found ↦ found.map fun near ↦ .ofList (near.map (·.term))

end Index

end Concordance
