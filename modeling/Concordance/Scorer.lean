import Concordance.Decimal
import Concordance.Error

/-!
# Scores

How well a term fits a document follows from four counts: in how many documents the term occurs, how
many there are, how often it occurs in this one, and how long this one is against the mean. A scorer
is a formula for it; the score of a document is the sum over the terms that matched.
-/

namespace Concordance

/-- What is counted for a term in the whole index. -/
structure TermStatistics where
  /-- The number of documents in which the term occurs. -/
  documentFrequency : UInt64
  /-- The number of documents. -/
  documents : UInt64
  deriving DecidableEq, Repr

/-- What is counted for a term in one document. -/
structure DocumentStatistics where
  /-- How often the term occurs. -/
  frequency : UInt32
  /-- The number of tokens of the document. -/
  length : UInt32
  /-- The mean number of tokens of a document. -/
  averageLength : Float

/-- The formulas for a score. -/
inductive Scorer where
  /-- Logarithmic term frequency times inverse document frequency. -/
  | tfidf
  /-- The best match formula: frequency saturates at a rate set by `k1`, and `b` sets how much the
  length of the document counts. -/
  | bm25 (k1 b : Float)

namespace Scorer

/-- The name of a scorer. -/
def name : Scorer → Bytes
  | tfidf => utf8 "tfidf"
  | bm25 _ _ => utf8 "bm25"

/-- The scorer of a name. The best match formula needs a non-negative `k1` and a `b` from `0` to
`1`. -/
def named (name : Bytes) (k1 b : Float) : Except Error Scorer :=
  if name.isEmpty || name == utf8 "tfidf" then .ok tfidf
  else if name = utf8 "bm25" then
    if k1 < 0 ∨ b < 0 ∨ b > 1 then .error (.settings .scorerRange) else .ok (bm25 k1 b)
  else .error (.settings (.unknownScorer name))

/-- The score of a term in a document: `0` if the term does not occur. -/
def score (s : Scorer) (t : TermStatistics) (d : DocumentStatistics) : Float :=
  if d.frequency = 0 ∨ t.documentFrequency = 0 then 0
  else
    let tf := d.frequency.toFloat
    let df := t.documentFrequency.toFloat
    let n := t.documents.toFloat
    match s with
    | tfidf => (1 + tf.log) * (1 + n / df).log
    | bm25 k1 b =>
      let idf := (1 + (n - df + 0.5) / (df + 0.5)).log
      let norm := if d.averageLength > 0 then d.length.toFloat / d.averageLength else 1
      idf * (tf * (k1 + 1)) / (tf + k1 * (1 - b + b * norm))

/-- How the scores that are not numbers come about. If a parameter is not a number no score is. -/
def undefined : Scorer → Decimal.Undefined
  | tfidf => .computed
  | bm25 k1 b => if k1.isNaN || b.isNaN then .given else .computed

end Scorer

end Concordance
