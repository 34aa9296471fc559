import Concordance.Counter
import Concordance.Text.Utf8

/-!
# Stems of Russian words

The Snowball algorithm on the characters of a word, after every `ё` has become `е`. Three regions
are found once on the whole word: `rv` begins after the first vowel, `r1` after the first consonant
that follows a vowel, and `r2` after the next such consonant inside `r1`. The steps then take
endings off that lie wholly inside a region.
-/

namespace Concordance.Russian

/-- A table of endings. -/
abbrev Endings := List (List Char)

/-- A table of endings written out with blanks between them. -/
def endings (table : List String) : Endings :=
  table.map String.toList

def gerundAfterA : Endings := endings ["вшись", "вши", "в"]

def gerund : Endings := endings ["ившись", "ывшись", "ивши", "ывши", "ив", "ыв"]

def adjective : Endings :=
  endings ["ими", "ыми", "его", "ого", "ему", "ому", "ее", "ие", "ые", "ое", "ей", "ий", "ый",
    "ой", "ем", "им", "ым", "ом", "их", "ых", "ую", "юю", "ая", "яя", "ою", "ею"]

def participleAfterA : Endings := endings ["ем", "нн", "вш", "ющ", "щ"]

def participle : Endings := endings ["ивш", "ывш", "ующ"]

def reflexive : Endings := endings ["ся", "сь"]

def verbAfterA : Endings :=
  endings ["ете", "йте", "ешь", "нно", "ла", "на", "ли", "ем", "ло", "но", "ет", "ют", "ны",
    "ть", "й", "л", "н"]

def verb : Endings :=
  endings ["ейте", "уйте", "ила", "ыла", "ена", "ите", "или", "ыли", "ило", "ыло", "ено", "ует",
    "уют", "ены", "ить", "ыть", "ишь", "ую", "ей", "уй", "ил", "ыл", "им", "ым", "ен", "ят",
    "ит", "ыт", "ю"]

def noun : Endings :=
  endings ["иями", "ями", "ами", "ией", "иям", "ием", "иях", "ев", "ов", "ие", "ье", "еи", "ии",
    "ьи", "ей", "ой", "ий", "ям", "ем", "ам", "ом", "ах", "ях", "ию", "ью", "ия", "ья", "и",
    "ы", "ь", "ю", "у", "о", "а", "е", "й", "я"]

def superlative : Endings := endings ["ейше", "ейш"]

def derivational : Endings := endings ["ость", "ост"]

/-- The nine vowels. -/
def isVowel (c : Char) : Bool :=
  "аеиоуыэюя".toList.contains c

/-! ### Regions -/

/-- Where the part after the first vowel begins: the length of the word if it has none. -/
def afterVowel : List Char → Nat
  | [] => 0
  | c :: w => if isVowel c then 1 else 1 + afterVowel w

/-- Where the part after the first consonant that follows a vowel begins: the length of the word if
there is none. -/
def afterClosed : List Char → Nat
  | a :: b :: w => if isVowel a && !isVowel b then 2 else 1 + afterClosed (b :: w)
  | w => w.length

/-- Where the regions of a word begin. -/
structure Regions where
  rv : Nat
  r1 : Nat
  r2 : Nat
  deriving DecidableEq, Repr

/-- The regions of a word. -/
def regions (w : List Char) : Regions :=
  let r1 := afterClosed w
  ⟨afterVowel w, r1, r1 + afterClosed (w.drop r1)⟩

/-! ### Taking endings off -/

/-- Whether a word has an ending that begins in the region from `start` on. With `afterA` the
letter before the ending must also lie in the region and be `а` or `я`. -/
def hasEnding (start : Nat) (afterA : Bool) (w ending : List Char) : Bool :=
  let cut := w.length - ending.length
  ending.isSuffixOf w && start ≤ cut &&
    (!afterA || (start < cut && (w[cut - 1]? == some 'а' || w[cut - 1]? == some 'я')))

/-- The length of the longest ending of the table that a word has, `0` if it has none. -/
def longest (table : Endings) (start : Nat) (afterA : Bool) (w : List Char) : Nat :=
  table.foldl (fun best ending ↦
    if best < ending.length && hasEnding start afterA w ending then ending.length else best) 0

/-- The word without its last `n` characters. -/
def chop (w : List Char) (n : Nat) : List Char :=
  w.take (w.length - n)

/-- The longest ending of either table, where those of the second must follow `а` or `я`. -/
def longestOfTwo (free afterA : Endings) (start : Nat) (w : List Char) : Nat :=
  max (longest free start false w) (longest afterA start true w)

/-! ### The steps -/

/-- Inflection: a gerund ending goes; else a reflexive ending goes and then an adjectival ending
with the participle before it, or a verbal one, or a nominal one. -/
def inflection (r : Regions) (w : List Char) : List Char :=
  let g := longestOfTwo gerund gerundAfterA r.rv w
  if 0 < g then chop w g
  else
    let w := chop w (longest reflexive r.rv false w)
    let a := longest adjective r.rv false w
    if 0 < a then
      let w := chop w a
      chop w (longestOfTwo participle participleAfterA r.rv w)
    else
      let v := longestOfTwo verb verbAfterA r.rv w
      if 0 < v then chop w v else chop w (longest noun r.rv false w)

/-- A final `и` goes. -/
def finalI (r : Regions) (w : List Char) : List Char :=
  if hasEnding r.rv false w "и".toList then chop w 1 else w

/-- The derivational ending goes if it lies in `r2`. -/
def derivation (r : Regions) (w : List Char) : List Char :=
  chop w (longest derivational r.r2 false w)

/-- A doubled `н` becomes single. -/
def singleN (r : Regions) (w : List Char) : List Char :=
  if hasEnding r.rv false w "нн".toList then chop w 1 else w

/-- A doubled `н` becomes single; else a superlative ending goes, and the same is tried again; else
a final soft sign goes. -/
def tidy (r : Regions) (w : List Char) : List Char :=
  if hasEnding r.rv false w "нн".toList then chop w 1
  else
    let s := longest superlative r.rv false w
    if 0 < s then singleN r (chop w s)
    else if hasEnding r.rv false w "ь".toList then chop w 1 else w

/-- The letter `ё` counts as `е`. -/
def foldYo (c : Char) : Char :=
  if c = 'ё' then 'е' else c

/-- The stem of the characters of a word. -/
def stemChars (w : List Char) : List Char :=
  let w := w.map foldYo
  let r := regions w
  if w.length ≤ r.rv then w else tidy r (derivation r (finalI r (inflection r w)))

/-- The stem of a word. Words of fewer than four bytes are their own stems. Of a longer word as much
is read as its length in 32 bits reaches. -/
def stem (w : Bytes) : Bytes :=
  if w.length < 4 then w else encode (stemChars (Utf8.decodeLossy (reached w)))

end Concordance.Russian
