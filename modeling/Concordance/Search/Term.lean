import Concordance.Search.Basic

/-!
# Searching for a term

A term asked for stands for several terms of the index: its synonyms, with full weight, and the
terms near one of them, whose weight falls with their distance. A term that is reached in several
ways keeps its best weight. The documents of all these terms are scored and united.
-/

namespace Concordance.Searcher

/-- The greater of two weights. -/
def greater (a b : Float) : Float :=
  if a < b then b else a

/-- A table of weights in which a term has at least the given weight. -/
def raise (weights : Dict Float) (term : Bytes) (weight : Float) : Dict Float :=
  weights.insert term (greater ((weights.find? term).getD 0) weight)

/-- The match of one posting of a term, if the term occurs in a field that counts. -/
def matchPosting (s : Searcher) (o : SearchOptions) (term : Bytes) (weight : Float)
    (statistics : TermStatistics) (p : Posting) : Except Error (Option Match) :=
  let n := frequency o p
  if n = 0 then .ok none
  else do
    let d ← s.documentStatistics o p.doc n
    let explanation :=
      if o.explain then
        (p.fields.filter fun h ↦ o.admits h.field).foldl
          (fun x h ↦ x.addTerms h.field (.ofList [term])) (∅ : Explanation)
      else ∅
    return some ⟨p.doc, weight * s.scorer.score statistics d, explanation⟩

/-- The documents of one term of the index. -/
def matchTerm (s : Searcher) (o : SearchOptions) (term : Bytes) (weight : Float) :
    Except Error Matches :=
  let postings := s.index.postings term
  postings.filterMapM (s.matchPosting o term weight (s.termStatistics postings))

/-- The weights of the terms near the given ones. -/
def nearWeights (s : Searcher) (o : SearchOptions) (terms : List Bytes) :
    Except Error (Dict Float) :=
  terms.foldlM (fun weights term ↦ do
    let found ← s.index.near term o.maxDistance o.cancelled
    return found.foldl (fun weights m ↦ raise weights m.term (s.decay ^ m.distance.toFloat))
      weights) ∅

/-- The terms that a term stands for, with their weights. -/
def expansion (s : Searcher) (o : SearchOptions) (term : Bytes) : Except Error (Dict Float) :=
  let exact := s.synonyms.expand term
  let weights : Dict Float := .ofList (exact.toList.map (·, 1))
  if 0 < o.maxDistance then do
    let near ← s.nearWeights o exact.toList
    return near.entries.foldl (fun weights e ↦ raise weights e.1 e.2) weights
  else .ok weights

/-- The documents of the terms that a term stands for. -/
def matchExpansion (s : Searcher) (o : SearchOptions) (term : Bytes) : Except Error Matches := do
  let weights ← s.expansion o term
  let lists ← weights.entries.mapM fun e ↦ s.matchTerm o e.1 e.2
  return .uniteAll lists

/-- The documents of the terms that begin with the given bytes. -/
def matchBeginning (s : Searcher) (o : SearchOptions) (start : Bytes) : Except Error Matches := do
  let lists ← (s.index.termsBeginning start).mapM fun term ↦ s.matchTerm o term 1
  return .uniteAll lists

end Concordance.Searcher
