import Concordance.Stem.Stemmer
import Concordance.Text.Orthography

/-!
# Analysis of text

An analyzer turns a text into tokens. Every word of the text takes one position, counted from zero,
whether or not it becomes a token: a word that is too short, too long or a stop word leaves a gap,
so a phrase never closes over a word that was left out.

A word becomes a token in this order: lower case, then letters, digits and marks only, then the
limits on its length, then the stop words, then the stemmer.
-/

namespace Concordance

/-- A term of a text, the field it stands in and the number of words before it. -/
structure Token where
  text : Bytes
  position : UInt32
  field : Bytes
  deriving DecidableEq, Repr

/-- How texts are analyzed. -/
structure Analyzer where
  /-- The least number of characters of a term. -/
  minLength : Nat := 1
  /-- The greatest number of characters of a term. -/
  maxLength : Nat := 64
  /-- Whether stop words are left out. -/
  dropStopWords : Bool := false
  /-- The stemmer, if words are stemmed. -/
  stemmer : Option Stemmer := none
  /-- What breaks texts into words and brings them into lower case. -/
  [orthography : Orthography]

/-- Words that carry no meaning of their own. -/
def stopWords : List Bytes :=
  ["и", "в", "во", "не", "что", "он", "на", "я", "с", "со", "как", "а", "то", "все", "она", "так",
   "его", "но", "да", "ты", "к", "у", "же", "вы", "за", "бы", "по", "только", "её", "мне", "было",
   "вот", "от", "меня", "ещё", "нет", "о", "из", "ему", "для", "при", "без", "до", "под", "над",
   "об", "про", "это", "этот", "эта", "эти", "the", "a", "an", "and", "or", "but", "in", "on",
   "at", "to", "for", "of", "with", "is", "was", "are", "were", "been", "be", "have", "has", "had",
   "it", "its"].map utf8

namespace Analyzer

/-- The term of a word, if it has one. With `stemmed` off the stemmer is not used. -/
def term? (a : Analyzer) (stemmed : Bool) (word : Bytes) : Option Bytes :=
  let kept := a.orthography.termChars word
  if kept.length = 0 ∨ kept.length < a.minLength ∨ a.maxLength < kept.length then none
  else
    let term := encode kept
    if a.dropStopWords ∧ stopWords.contains term then none
    else
      let result :=
        match a.stemmer with
        | some s => if stemmed then s.stem term else term
        | none => term
      if result.isEmpty then none else some result

/-- The tokens of a list of words, the first of which stands at `position`. -/
def tokensFrom (a : Analyzer) (stemmed : Bool) (field : Bytes) (position : UInt32) :
    List Bytes → List Token
  | [] => []
  | word :: words =>
    let later := tokensFrom a stemmed field (position + 1) words
    match a.term? stemmed word with
    | some term => ⟨term, position, field⟩ :: later
    | none => later

/-- The tokens of a text in a field. -/
def tokens (a : Analyzer) (text field : Bytes) : List Token :=
  a.tokensFrom true field 0 (a.orthography.words text)

/-- The tokens of a piece of a query, which belongs to no field. -/
def analyze (a : Analyzer) (stemmed : Bool) (text : Bytes) : List Token :=
  a.tokensFrom stemmed [] 0 (a.orthography.words text)

end Analyzer

end Concordance
