import Concordance.Text.WordClass

/-!
# Segments and words

A text falls into segments at its word boundaries. A boundary is decided from the class of the
next character and a short memory of what stands before it; only a sign that may stand inside a
word needs one look ahead. Characters that attach to the one before them are looked through, so
`Context.base` is the last character that does not, and `Context.before` the one before that.

Nothing is lost: the segments of a text put together are the text.
-/

namespace Concordance

/-- What is remembered of the text before a possible boundary. -/
structure Context where
  /-- The class of the character just before. -/
  last : WordClass
  /-- The class of the last character that does not attach. -/
  base : WordClass
  /-- The class of the one before it. -/
  before : WordClass
  /-- Whether an odd number of flag halves ends here. -/
  halfFlag : Bool
  deriving DecidableEq, Repr

namespace Context

/-- A text begins as after the end of a line: nothing joins to what stands before. -/
def start : Context :=
  ⟨.newline, .newline, .newline, false⟩

/-- The context after one more character. A character that would attach stands by itself at the
beginning of a line. -/
def push (ctx : Context) (cls : WordClass) : Context :=
  if cls.attaches && !ctx.last.endsLine then
    { ctx with last := cls }
  else
    ⟨cls, cls, ctx.base, cls == .regional && !(ctx.base == .regional && ctx.halfFlag)⟩

/-- Whether a character of class `cls` belongs to the same segment as the text before it. `next` is
the class of the first character after it that does not attach. -/
def joins (ctx : Context) (cls : WordClass) (next : Option WordClass) : Bool :=
  if ctx.last == .carriageReturn && cls == .lineFeed then true
  else if ctx.last.endsLine || cls.endsLine then false
  else if ctx.last == .joiner && cls == .pictograph then true
  else if ctx.last == .space && cls == .space then true
  else if cls.attaches then true
  else
    match ctx.base, cls with
    | .letter, .letter | .letter, .digit | .digit, .letter | .digit, .digit => true
    | .letter, .midLetter => next == some .letter
    | .letter, .midBoth => next == some .letter
    | .midLetter, .letter => ctx.before == .letter
    | .midBoth, .letter => ctx.before == .letter
    | .digit, .midDigit => next == some .digit
    | .digit, .midBoth => next == some .digit
    | .midDigit, .digit => ctx.before == .digit
    | .midBoth, .digit => ctx.before == .digit
    | .letter, .connector | .digit, .connector | .connector, .connector => true
    | .connector, .letter | .connector, .digit => true
    | .regional, .regional => ctx.halfFlag
    | _, _ => false

end Context

/-- The class of the first character of a text that does not attach. -/
def nextBase : List Char → Option WordClass
  | [] => none
  | c :: cs => if (WordClass.ofChar c).attaches then nextBase cs else some (WordClass.ofChar c)

/-- The rest of the segment that the context is in, and the segments after it. -/
def segmentsFrom (ctx : Context) : List Char → List Char × List (List Char)
  | [] => ([], [])
  | c :: cs =>
    let cls := WordClass.ofChar c
    let (rest, later) := segmentsFrom (ctx.push cls) cs
    if ctx.joins cls (nextBase cs) then (c :: rest, later) else ([], (c :: rest) :: later)

/-- The segments of a text, in order. -/
def segments (cs : List Char) : List (List Char) :=
  (segmentsFrom .start cs).2

/-- A segment is a word when it holds a letter or a digit, or at least two connectors. -/
def isWord (segment : List Char) : Bool :=
  segment.any (fun c ↦ (WordClass.ofChar c).isAlphanumeric) ||
    2 ≤ segment.countP fun c ↦ WordClass.ofChar c == .connector

/-- The segments from a context, put back together, are the text. -/
theorem segmentsFrom_flatten (ctx : Context) (cs : List Char) :
    (segmentsFrom ctx cs).1 ++ (segmentsFrom ctx cs).2.flatten = cs := by
  induction cs generalizing ctx with
  | nil => rfl
  | cons c cs ih =>
    simp only [segmentsFrom]
    split <;> simpa using ih _

/-- The first character of a text begins a segment. -/
theorem segmentsFrom_start_fst (cs : List Char) : (segmentsFrom .start cs).1 = [] := by
  cases cs with
  | nil => rfl
  | cons c cs => simp [segmentsFrom, Context.joins, Context.start, WordClass.endsLine]

/-- **Segments lose nothing:** put together they are the text. -/
theorem flatten_segments (cs : List Char) : (segments cs).flatten = cs := by
  simpa [segments, segmentsFrom_start_fst] using segmentsFrom_flatten .start cs

end Concordance
