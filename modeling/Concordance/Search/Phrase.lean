import Concordance.Search.Basic

/-!
# Searching for a phrase

A phrase occurs where all its tokens stand in one field at the distances they have in the phrase.
The postings of its terms are walked together: the first list leads, the others are moved up to the
document at which it stands, and the walk ends as soon as one of them is used up.
-/

namespace Concordance.Searcher

/-- The documents that the leading postings share with all others, each with its postings. -/
def commonPostings : Postings → List Postings → List (Posting × List Posting)
  | [], _ => []
  | p :: rest, others =>
    let others := others.map (·.dropWhile (·.doc < p.doc))
    match others.mapM List.head? with
    | none => []
    | some heads =>
      if heads.all (·.doc == p.doc) then (p, heads) :: commonPostings rest others
      else commonPostings rest others

/-- The positions of a term in a field. -/
def positionsIn (field : Bytes) (p : Posting) : Option (List UInt32) :=
  (p.fields.find? (·.field == field)).map (·.positions)

/-- How often a phrase occurs in one field: `lead` are the hits of its first term, `others` the
postings of the others and `offsets` their distances from the first. -/
def occurrences (lead : FieldHits) (others : List Posting) (offsets : List UInt32) : Nat :=
  match others.mapM (positionsIn lead.field) with
  | none => 0
  | some positions =>
    lead.positions.countP fun start ↦
      (positions.zip offsets).all fun (ps, offset) ↦ ps.contains (start + offset)

/-- For each field that counts how often a phrase occurs in it, fields without it left out. -/
def phraseFields (o : SearchOptions) (lead : Posting) (others : List Posting)
    (offsets : List UInt32) : List (Bytes × Nat) :=
  ((lead.fields.filter fun h ↦ o.admits h.field).map fun h ↦
    (h.field, occurrences h others offsets)).filter (0 < ·.2)

/-- The match of a document for a phrase, if the phrase occurs in a field that counts. -/
def matchPhrasePosting (s : Searcher) (o : SearchOptions) (terms : ByteSet)
    (offsets : List UInt32) (lists : List Postings) (lead : Posting) (others : List Posting) :
    Except Error (Option Match) :=
  let fields := phraseFields o lead others offsets
  let n := total (fields.map fun f ↦ f.2.toUInt32)
  if n = 0 then .ok none
  else do
    let d ← s.documentStatistics o lead.doc n
    let score := lists.foldl (fun sum l ↦ sum + s.scorer.score (s.termStatistics l) d) 0
    let explanation :=
      if o.explain then fields.foldl (fun x f ↦ x.addTerms f.1 terms) (∅ : Explanation) else ∅
    return some ⟨lead.doc, score, explanation⟩

/-- The documents in which the tokens of a phrase occur. -/
def matchPhrase (s : Searcher) (o : SearchOptions) : List Token → Except Error Matches
  | [] => .ok []
  | token :: tokens =>
    let lead := s.index.postings token.text
    let others := tokens.map (s.index.postings ·.text)
    if (lead :: others).any List.isEmpty then .ok []
    else
      let offsets := tokens.map (·.position - token.position)
      let terms := ByteSet.ofList ((token :: tokens).map (·.text))
      (commonPostings lead others).filterMapM fun (p, ps) ↦
        s.matchPhrasePosting o terms offsets (lead :: others) p ps

end Concordance.Searcher
