import Concordance.Bytes
import Concordance.Counter

/-!
# Stems of English words

Porter's algorithm on words of the letters `a` to `z`. A word is read as a string of vowels and
consonants, where `y` is a consonant at the start and after a vowel. Its *measure* counts how often
a consonant follows a vowel, and the steps take off or replace endings when the measure of what
stands before them is large enough.

A step that needs the last letter or the one before it has no result when there is none, so the
whole reduction is a partial function. It has a result for every word that has a letter; but the
letters are those that the length of the word in 32 bits reaches, and of a very long word these may
be none. `stem` falls back to the word itself then.
-/

namespace Concordance.English

/-- The five letters that are always vowels. -/
def isVowelLetter (b : UInt8) : Bool :=
  b == 97 || b == 101 || b == 105 || b == 111 || b == 117

/-- For each letter of a word whether it is a consonant. `consonantY` tells whether a `y` that
comes first would be one. -/
def consonantsFrom (consonantY : Bool) : Bytes → List Bool
  | [] => []
  | b :: w =>
    let consonant := if isVowelLetter b then false else if b = 121 then consonantY else true
    consonant :: consonantsFrom (!consonant) w

/-- For each letter of a word whether it is a consonant: `y` is one at the start and after a
vowel. -/
def consonants (w : Bytes) : List Bool :=
  consonantsFrom true w

/-- How many runs of vowels are followed by a consonant, in a list that does not begin with a
consonant: skip the vowels, skip the consonants after them, and count one. -/
def countRuns (flags : List Bool) : Nat :=
  match _h : flags.dropWhile (!·) with
  | [] => 0
  | _ :: rest => 1 + countRuns (rest.dropWhile id)
termination_by flags.length
decreasing_by
  have h₁ : ∀ (p : Bool → Bool) (l : List Bool), (l.dropWhile p).length ≤ l.length :=
    fun p l ↦ (List.dropWhile_suffix p).length_le
  have h₂ := h₁ (!·) flags
  have h₃ := h₁ id rest
  rw [_h, List.length_cons] at h₂
  omega

/-- The measure of a word: how many runs of vowels are followed by a consonant. -/
def measure (w : Bytes) : Nat :=
  countRuns ((consonants w).dropWhile id)

/-- Whether a word has a vowel. -/
def hasVowel (w : Bytes) : Bool :=
  (consonants w).any (!·)

/-- Whether a word ends in the same consonant twice. -/
def endsDoubled (w : Bytes) : Bool :=
  match w.reverse, (consonants w).getLast? with
  | a :: b :: _, some consonant => a == b && consonant
  | _, _ => false

/-- Whether a word ends in consonant, vowel, consonant, the last of them not `w`, `x` or `y`. -/
def endsShort (w : Bytes) : Bool :=
  match w.reverse, (consonants w).reverse with
  | a :: _, true :: false :: true :: _ => a != 119 && a != 120 && a != 121
  | _, _ => false

/-- What stands before an ending, if the word has that ending. -/
def before? (ending w : Bytes) : Option Bytes :=
  if ending.isSuffixOf w then some (w.take (w.length - ending.length)) else none

/-- The last letter of a word. -/
def last? (w : Bytes) : Option UInt8 :=
  w.getLast?

/-- The last letter but one. -/
def penultimate? (w : Bytes) : Option UInt8 :=
  w.dropLast.getLast?

/-- An ending and what may replace it. -/
structure Rule where
  ending : Bytes
  replacement : Bytes
  deriving DecidableEq, Repr

/-- A table of rules in the order in which they are tried. -/
abbrev Rules := List Rule

/-- A rule between two texts. -/
def rule (ending replacement : String) : Rule :=
  ⟨utf8 ending, utf8 replacement⟩

/-- The first rule whose ending the word has is applied if the measure of what stands before it is
positive. -/
def Rules.apply : Rules → Bytes → Bytes
  | [], w => w
  | r :: rs, w =>
    match before? r.ending w with
    | some stem => if 0 < measure stem then stem ++ r.replacement else w
    | none => Rules.apply rs w

/-! ### The steps -/

/-- Plurals: `sses` becomes `ss`, `ies` becomes `i`, and a single `s` goes. -/
def plural (w : Bytes) : Option Bytes := do
  let c ← last? w
  if c ≠ 115 then return w
  if let some stem := before? (utf8 "sses") w then return stem ++ utf8 "ss"
  if let some stem := before? (utf8 "ies") w then return stem ++ utf8 "i"
  match penultimate? w with
  | some b => return if b ≠ 115 then w.dropLast else w
  | none => return w

/-- What is left after `ed` or `ing` has gone is mended: a lost `e` comes back, and a doubled
consonant becomes single unless it is `l`, `s` or `z`. -/
def mend (w : Bytes) : Option Bytes := do
  if let some stem := before? (utf8 "at") w then return stem ++ utf8 "ate"
  if let some stem := before? (utf8 "bl") w then return stem ++ utf8 "ble"
  if let some stem := before? (utf8 "iz") w then return stem ++ utf8 "ize"
  let c ← last? w
  if endsDoubled w then
    return if c = 108 ∨ c = 115 ∨ c = 122 then w else w.dropLast
  return if measure w = 1 ∧ endsShort w then w ++ utf8 "e" else w

/-- Past and progressive forms: `eed` becomes `ee` after a positive measure; `ed` and `ing` go if
a vowel stands before them. -/
def inflected (w : Bytes) : Option Bytes :=
  match before? (utf8 "eed") w with
  | some stem => some (if 0 < measure stem then w.dropLast else w)
  | none =>
    match (before? (utf8 "ed") w).or (before? (utf8 "ing") w) with
    | some stem => if hasVowel stem then mend stem else some w
    | none => some w

/-- A final `y` becomes `i` if a vowel stands before it. -/
def finalY (w : Bytes) : Bytes :=
  match before? (utf8 "y") w with
  | some stem => if hasVowel stem then stem ++ utf8 "i" else w
  | none => w

/-- Endings made of two suffixes, by the last letter but one. -/
def doubleRules (c : UInt8) : Rules :=
  if c = 97 then [rule "ational" "ate", rule "tional" "tion"]
  else if c = 99 then [rule "enci" "ence", rule "anci" "ance"]
  else if c = 101 then [rule "izer" "ize"]
  else if c = 108 then
    [rule "bli" "ble", rule "alli" "al", rule "entli" "ent", rule "eli" "e", rule "ousli" "ous"]
  else if c = 111 then [rule "ization" "ize", rule "ation" "ate", rule "ator" "ate"]
  else if c = 115 then
    [rule "alism" "al", rule "iveness" "ive", rule "fulness" "ful", rule "ousness" "ous"]
  else if c = 116 then [rule "aliti" "al", rule "iviti" "ive", rule "biliti" "ble"]
  else if c = 103 then [rule "logi" "log"]
  else []

/-- Endings in `ic`, `full`, `ness` and the like, by the last letter. -/
def singleRules (c : UInt8) : Rules :=
  if c = 101 then [rule "icate" "ic", rule "ative" "", rule "alize" "al"]
  else if c = 105 then [rule "iciti" "ic"]
  else if c = 108 then [rule "ical" "ic", rule "ful" ""]
  else if c = 115 then [rule "ness" ""]
  else []

/-- Endings that go altogether, by the last letter but one. -/
def bareEndings (c : UInt8) : List Bytes :=
  if c = 97 then [utf8 "al"]
  else if c = 99 then [utf8 "ance", utf8 "ence"]
  else if c = 101 then [utf8 "er"]
  else if c = 105 then [utf8 "ic"]
  else if c = 108 then [utf8 "able", utf8 "ible"]
  else if c = 110 then [utf8 "ant", utf8 "ement", utf8 "ment", utf8 "ent"]
  else if c = 111 then [utf8 "ion", utf8 "ou"]
  else if c = 115 then [utf8 "ism"]
  else if c = 116 then [utf8 "ate", utf8 "iti"]
  else if c = 117 then [utf8 "ous"]
  else if c = 118 then [utf8 "ive"]
  else if c = 122 then [utf8 "ize"]
  else []

/-- What stands before an ending that may go: before `ion` there must be an `s` or a `t`. -/
def beforeBare? (ending w : Bytes) : Option Bytes :=
  (before? ending w).filter fun stem ↦
    ending != utf8 "ion" || stem.getLast? == some 115 || stem.getLast? == some 116

/-- Double suffixes become single ones. -/
def unpairSuffix (w : Bytes) : Option Bytes := do
  let c ← penultimate? w
  return (doubleRules c).apply w

/-- Single suffixes are shortened or go. -/
def shortenSuffix (w : Bytes) : Option Bytes := do
  let c ← last? w
  return (singleRules c).apply w

/-- The first bare ending that the word has goes if the measure before it is above one. -/
def dropSuffix (w : Bytes) : Option Bytes := do
  let c ← penultimate? w
  match (bareEndings c).findSome? (beforeBare? · w) with
  | some stem => return if 1 < measure stem then stem else w
  | none => return w

/-- A final `e` goes if the measure is above one, or is one and what stands before it does not end
short. -/
def dropFinalE (w : Bytes) : Option Bytes := do
  let c ← last? w
  if c ≠ 101 then return w
  let m := measure w
  return if 1 < m ∨ (m = 1 ∧ ¬ endsShort w.dropLast) then w.dropLast else w

/-- A final `ll` becomes `l` if the measure is above one. -/
def singleFinalL (w : Bytes) : Option Bytes := do
  let c ← last? w
  return if c = 108 ∧ endsDoubled w ∧ 1 < measure w then w.dropLast else w

/-- All steps in order. A word that the first two have cut to a single letter is not cut further. -/
def reduce? (w : Bytes) : Option Bytes := do
  let w ← plural w
  let w ← inflected w
  if w.length ≤ 1 then return w
  let w := finalY w
  let w ← unpairSuffix w
  let w ← shortenSuffix w
  let w ← dropSuffix w
  let w ← dropFinalE w
  singleFinalL w

/-- Whether a byte is one of the letters `a` to `z`. -/
def isLetter (b : UInt8) : Bool :=
  97 ≤ b && b ≤ 122

/-- The stem of a word, if there is one. Words of fewer than three bytes and words with any byte but
the letters `a` to `z` are their own stems. -/
def stem? (w : Bytes) : Option Bytes :=
  if w.length ≤ 2 ∨ !w.all isLetter then some w else reduce? (reached w)

/-- The stem of a word, or the word itself if it has none. -/
def stem (w : Bytes) : Bytes :=
  (stem? w).getD w

end Concordance.English
