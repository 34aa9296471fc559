import Concordance.Stem.English

/-!
# A word in a buffer

Measuring a stem does not need the stem as a word of its own. The letters are read where they are,
by their places in the buffer of the whole word, and the stem is what stands before some place of
it; letters behind that place may be what an earlier cut has left over. The measure is counted in
one walk from the front, which passes over vowels and over consonants in turns.

Asking for a letter that the buffer does not have has no answer, and then the whole walk has none.
-/

namespace Concordance.English.Buffer

/-- Whether the letter at a place is a consonant. A `y` behind another letter is the opposite of
that letter, so through a row of `y` one has to look back to where it begins. -/
def isConsonant? (w : Bytes) : Nat → Option Bool
  | 0 =>
    match w[0]? with
    | none => none
    | some b => some (!isVowelLetter b)
  | i + 1 =>
    match w[i + 1]? with
    | none => none
    | some b =>
      if isVowelLetter b then some false
      else if b = 121 then (isConsonant? w i).map (!·)
      else some true

mutual

/-- Over vowels up to the next consonant, which is one more turn. -/
def overVowels (w : Bytes) (stop i turns : Nat) : Option Nat :=
  if stop ≤ i then some turns
  else
    match isConsonant? w i with
    | none => none
    | some true => overConsonants w stop (i + 1) (turns + 1)
    | some false => overVowels w stop (i + 1) turns
termination_by stop - i

/-- Over consonants up to the next vowel. -/
def overConsonants (w : Bytes) (stop i turns : Nat) : Option Nat :=
  if stop ≤ i then some turns
  else
    match isConsonant? w i with
    | none => none
    | some true => overConsonants w stop (i + 1) turns
    | some false => overVowels w stop (i + 1) turns
termination_by stop - i

end

/-- The measure of the stem before a place. The walk begins as if a consonant had been passed, so
consonants at the front are passed over without a turn. -/
def measure? (w : Bytes) (stop : Nat) : Option Nat :=
  overConsonants w stop 0 0

end Concordance.English.Buffer
