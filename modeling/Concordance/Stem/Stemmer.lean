import Concordance.Error
import Concordance.Stem.English
import Concordance.Stem.Russian

/-!
# Stemmers

A stemmer maps the forms of a word to one stem. Which one is used is a matter of configuration,
where it goes by its name; leaving words as they are is the absence of a stemmer.
-/

namespace Concordance

/-- The languages whose words can be stemmed. -/
inductive Stemmer where
  | english
  | russian
  deriving DecidableEq, Repr

namespace Stemmer

/-- The name of a stemmer. -/
def name : Stemmer → Bytes
  | english => utf8 "english"
  | russian => utf8 "russian"

/-- The stemmer of a name; `none` and the empty name stand for no stemmer. -/
def named (name : Bytes) : Except Error (Option Stemmer) :=
  if name.isEmpty || name == utf8 "none" then .ok none
  else if name = utf8 "english" then .ok (some english)
  else if name = utf8 "russian" then .ok (some russian)
  else .error (.settings (.unknownStemmer name))

/-- The stem of a word. -/
def stem : Stemmer → Bytes → Bytes
  | english => English.stem
  | russian => Russian.stem

end Stemmer

end Concordance
