import Concordance.Stem.Buffer

/-!
# Words worked on in place

The steps of the algorithm do not need a new word each. The letters stay in one buffer, and two
places in it move: where the word ends, and where the stem ends that is being looked at. To take an
ending off, the end of the word is moved and the letters behind it are left where they are. To put
another ending in its place, the letters between the two ends are exchanged, and what an earlier cut
has left behind them stays behind them.

Places are integers, because a place may be asked for that is before the first one, and because a
stem without letters ends there. So nothing keeps a step within the buffer but what it has found
out before. Here every question and every move is guarded. A letter that the buffer does not have is
not read, and a workpiece can only be made within its bounds (`Workpiece.of?`): its word has a
letter, ends in the buffer and ends no later than the word that the work began with; its stem ends
in the buffer and no later than that, or right before the first letter if it has none. Where a guard
does not let a step go on, the step has no result, and the whole work has none.

All places are signed words of 32 bits. The work begins at the last letter that is found when the
length of the word is kept in 32 bits, and it must be possible to count one on from there; no place
is behind it, so from then on no count can overflow.
-/

namespace Concordance.English

/-- Letters in a buffer, the place where the word in it ends, and the place where the stem under
test ends. The word was one that ended at the place `final`. -/
structure Workpiece (final : Nat) where
  letters : Bytes
  wordEnd : Int
  stemEnd : Int
  wordEnd_nonneg : 0 ≤ wordEnd
  wordEnd_le : wordEnd ≤ final
  wordEnd_lt : wordEnd < letters.length
  stemEnd_ge : -1 ≤ stemEnd
  stemEnd_le : stemEnd ≤ final
  stemEnd_lt : stemEnd < letters.length
  final_lt : final < 0x7FFFFFFF
  deriving DecidableEq, Repr

namespace Workpiece

/-- A workpiece, if it is within its bounds. -/
def of? (final : Nat) (letters : Bytes) (wordEnd stemEnd : Int) : Option (Workpiece final) :=
  if h : (0 ≤ wordEnd ∧ wordEnd ≤ final ∧ wordEnd < letters.length) ∧
      (-1 ≤ stemEnd ∧ stemEnd ≤ final ∧ stemEnd < letters.length) ∧ final < 0x7FFFFFFF then
    some ⟨letters, wordEnd, stemEnd, h.1.1, h.1.2.1, h.1.2.2, h.2.1.1, h.2.1.2.1, h.2.1.2.2, h.2.2⟩
  else none

variable {final : Nat}

/-- The letters up to a place and with it. -/
def upTo (p : Workpiece final) (i : Int) : Bytes :=
  p.letters.take (i + 1).toNat

/-- The word. -/
def word (p : Workpiece final) : Bytes :=
  p.upTo p.wordEnd

/-- The stem under test. -/
def tested (p : Workpiece final) : Bytes :=
  p.upTo p.stemEnd

/-! ### Questions -/

/-- The letter at a place. -/
def letter? (p : Workpiece final) (i : Int) : Option UInt8 :=
  if 0 ≤ i then p.letters[i.toNat]? else none

/-- Whether the letter at a place is a consonant. -/
def isConsonant? (p : Workpiece final) (i : Int) : Option Bool :=
  if 0 ≤ i then Buffer.isConsonant? p.letters i.toNat else none

/-- So many letters from a place on. -/
def slice? (p : Workpiece final) (i : Int) (n : Nat) : Option Bytes :=
  if 0 ≤ i ∧ i + n ≤ p.letters.length then some ((p.letters.drop i.toNat).take n) else none

/-- The measure of the stem. -/
def measure? (p : Workpiece final) : Option Nat :=
  Buffer.measure? p.letters (p.stemEnd + 1).toNat

/-- Whether there is a vowel before a place, from another place on. -/
def hasVowelFrom? (w : Bytes) (stop i : Nat) : Option Bool :=
  if stop ≤ i then some false
  else
    match Buffer.isConsonant? w i with
    | none => none
    | some true => hasVowelFrom? w stop (i + 1)
    | some false => some true
termination_by stop - i

/-- Whether the stem has a vowel. -/
def hasVowel? (p : Workpiece final) : Option Bool :=
  hasVowelFrom? p.letters (p.stemEnd + 1).toNat 0

/-- Whether the same consonant stands at a place and before it. -/
def isDoubled? (p : Workpiece final) (i : Int) : Option Bool := do
  if i < 1 then return false
  if (← p.letter? i) ≠ (← p.letter? (i - 1)) then return false
  p.isConsonant? i

/-- Whether consonant, vowel, consonant come up to a place, the last of them not `w`, `x` or `y`. -/
def isShort? (p : Workpiece final) (i : Int) : Option Bool := do
  if i < 2 then return false
  if !(← p.isConsonant? i) then return false
  if ← p.isConsonant? (i - 1) then return false
  if !(← p.isConsonant? (i - 2)) then return false
  let b ← p.letter? i
  return b != 119 && b != 120 && b != 121

/-- Whether the word has an ending. If so, the stem before it is the one to test from now on. -/
def ends? (p : Workpiece final) (ending : Bytes) : Option (Option (Workpiece final)) :=
  if p.wordEnd + 1 < ending.length then some none
  else do
    if (← p.slice? (p.wordEnd - ending.length + 1) ending.length) ≠ ending then return none
    return some (← of? final p.letters p.wordEnd (p.wordEnd - ending.length))

/-! ### Moves -/

/-- The word ends at another place. -/
def endAt? (p : Workpiece final) (i : Int) : Option (Workpiece final) :=
  of? final p.letters i p.stemEnd

/-- The whole word is the stem to test. -/
def testWord? (p : Workpiece final) : Option (Workpiece final) :=
  of? final p.letters p.wordEnd p.wordEnd

/-- Other letters come in the place of those between the stem and the end of the word. -/
def exchange? (p : Workpiece final) (ending : Bytes) : Option (Workpiece final) :=
  if p.stemEnd ≤ p.wordEnd then
    of? final (p.tested ++ ending ++ p.letters.drop (p.wordEnd + 1).toNat)
      (p.stemEnd + ending.length) p.stemEnd
  else none

/-- Another letter comes in the place of the last one of the word. -/
def setLast? (p : Workpiece final) (b : UInt8) : Option (Workpiece final) :=
  of? final (p.letters.set p.wordEnd.toNat b) p.wordEnd p.stemEnd

/-! ### The steps -/

/-- Plurals. -/
def plural? (p : Workpiece final) : Option (Workpiece final) := do
  if (← p.letter? p.wordEnd) ≠ 115 then return p
  match ← p.ends? (utf8 "sses") with
  | some p => p.endAt? (p.wordEnd - 2)
  | none =>
    match ← p.ends? (utf8 "ies") with
    | some p => p.exchange? (utf8 "i")
    | none =>
      if p.wordEnd ≤ 0 then return p
      if (← p.letter? (p.wordEnd - 1)) ≠ 115 then p.endAt? (p.wordEnd - 1) else return p

/-- A doubled consonant is made single, and double again if it was `l`, `s` or `z`. Otherwise `e`
comes back behind a short word. -/
def mendLast? (p : Workpiece final) : Option (Workpiece final) := do
  if ← p.isDoubled? p.wordEnd then
    let p ← p.endAt? (p.wordEnd - 1)
    let b ← p.letter? p.wordEnd
    if b = 108 ∨ b = 115 ∨ b = 122 then p.endAt? (p.wordEnd + 1) else return p
  else if (← p.measure?) = 1 then
    if ← p.isShort? p.wordEnd then p.exchange? (utf8 "e") else return p
  else return p

/-- What is left after `ed` or `ing` has gone is mended. -/
def mend? (p : Workpiece final) : Option (Workpiece final) := do
  match ← p.ends? (utf8 "at") with
  | some p => p.exchange? (utf8 "ate")
  | none =>
    match ← p.ends? (utf8 "bl") with
    | some p => p.exchange? (utf8 "ble")
    | none =>
      match ← p.ends? (utf8 "iz") with
      | some p => p.exchange? (utf8 "ize")
      | none => p.mendLast?

/-- An ending goes if there is a vowel before it. -/
def uninflect? (p : Workpiece final) : Option (Workpiece final) := do
  if ← p.hasVowel? then (← p.endAt? p.stemEnd).mend? else return p

/-- Past and progressive forms. -/
def inflected? (p : Workpiece final) : Option (Workpiece final) := do
  match ← p.ends? (utf8 "eed") with
  | some p => if 0 < (← p.measure?) then p.endAt? (p.wordEnd - 1) else return p
  | none =>
    match ← p.ends? (utf8 "ed") with
    | some p => p.uninflect?
    | none =>
      match ← p.ends? (utf8 "ing") with
      | some p => p.uninflect?
      | none => return p

/-- A final `y` becomes `i`. -/
def finalY? (p : Workpiece final) : Option (Workpiece final) := do
  match ← p.ends? (utf8 "y") with
  | some p => if ← p.hasVowel? then p.setLast? 105 else return p
  | none => return p

/-- The first rule whose ending the word has is applied if the measure before it is positive. -/
def applyRules? : Rules → Workpiece final → Option (Workpiece final)
  | [], p => some p
  | r :: rs, p => do
    match ← p.ends? r.ending with
    | some p => if 0 < (← p.measure?) then p.exchange? r.replacement else return p
    | none => applyRules? rs p

/-- Double suffixes become single ones. -/
def unpairSuffix? (p : Workpiece final) : Option (Workpiece final) := do
  applyRules? (doubleRules (← p.letter? (p.wordEnd - 1))) p

/-- Single suffixes are shortened or go. -/
def shortenSuffix? (p : Workpiece final) : Option (Workpiece final) := do
  applyRules? (singleRules (← p.letter? p.wordEnd)) p

/-- Whether an ending may go that stands behind the stem: `ion` only behind `s` or `t`. -/
def mayGo? (p : Workpiece final) (ending : Bytes) : Option Bool := do
  if ending ≠ utf8 "ion" then return true
  if p.stemEnd < 0 then return false
  let b ← p.letter? p.stemEnd
  return b == 115 || b == 116

/-- The first of some endings that the word has and that may go, goes if the measure before it is
above one. -/
def dropFirst? : List Bytes → Workpiece final → Option (Workpiece final)
  | [], p => some p
  | ending :: endings, p => do
    match ← p.ends? ending with
    | some p =>
      if ← p.mayGo? ending then
        if 1 < (← p.measure?) then p.endAt? p.stemEnd else return p
      else dropFirst? endings p
    | none => dropFirst? endings p

/-- Bare endings go. -/
def dropSuffix? (p : Workpiece final) : Option (Workpiece final) := do
  dropFirst? (bareEndings (← p.letter? (p.wordEnd - 1))) p

/-- A final `e` goes. -/
def dropFinalE? (p : Workpiece final) : Option (Workpiece final) := do
  if (← p.letter? p.wordEnd) ≠ 101 then return p
  let m ← p.measure?
  if 1 < m then p.endAt? (p.wordEnd - 1)
  else if m = 1 then
    if ← p.isShort? (p.wordEnd - 1) then return p else p.endAt? (p.wordEnd - 1)
  else return p

/-- A final `ll` becomes `l`. The stem under test is still the word with the `e` that has gone. -/
def singleFinalL? (p : Workpiece final) : Option (Workpiece final) := do
  if (← p.letter? p.wordEnd) ≠ 108 then return p
  if !(← p.isDoubled? p.wordEnd) then return p
  if 1 < (← p.measure?) then p.endAt? (p.wordEnd - 1) else return p

/-- The steps behind the first two. A word of a single letter is spared them. -/
def derived? (p : Workpiece final) : Option (Workpiece final) := do
  if p.wordEnd ≤ 0 then return p
  let p ← p.finalY?
  let p ← p.unpairSuffix?
  let p ← p.shortenSuffix?
  let p ← p.dropSuffix?
  let p ← p.testWord?
  let p ← p.dropFinalE?
  p.singleFinalL?

/-- The place of the last letter of a word, which is one less than its length in 32 bits. There is
none before the least number of 32 bits. -/
def lastPlace? (w : Bytes) : Option Int :=
  if length32 w = Int32.minValue then none else some ((length32 w).toInt - 1)

/-- All steps in order, on a word put into a buffer. -/
def run? (w : Bytes) : Option Bytes := do
  let last ← lastPlace? w
  let p ← of? last.toNat w last 0
  let p ← p.plural?
  let p ← p.inflected?
  let p ← p.derived?
  p.slice? 0 (p.wordEnd + 1).toNat

end Workpiece

/-- The stem of a word, made in place. -/
def stemInPlace? (w : Bytes) : Option Bytes :=
  if w.length ≤ 2 ∨ !w.all isLetter then some w else Workpiece.run? w

end Concordance.English
