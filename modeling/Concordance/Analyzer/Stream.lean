import Concordance.Analyzer.Basic

/-!
# Token streams

A token stream hands out the tokens of a text one at a time and can start again at the beginning. It
looks at no more of the text than the tokens asked for need. Three things tell where it is: the
place of the iterator that finds the boundaries, the place where the next piece of the text begins,
and the position of the next word.

A stream needs an iterator, and an iterator may not be had.
-/

namespace Concordance

/-! ### Iterators over boundaries -/

/-- An iterator over the boundaries of a text. -/
structure BreakIterator where
  /-- The boundaries of the text after its beginning. -/
  boundaries : List Boundary
  /-- The boundary at which the iterator stands, or the beginning of the text. -/
  place : Nat

namespace BreakIterator

/-- The iterator at the beginning of its text. -/
def first (it : BreakIterator) : BreakIterator :=
  { it with place := 0 }

/-- The first boundary behind the place of the iterator, and the iterator there. There is none at
the end of the text. -/
def next? (it : BreakIterator) : Option (Boundary × BreakIterator) :=
  (it.boundaries.find? (it.place < ·.stop)).map fun b ↦ (b, { it with place := b.stop })

/-- The boundaries behind the place of the iterator. -/
def ahead (it : BreakIterator) : List Boundary :=
  it.boundaries.filter (it.place < ·.stop)

/-- What is behind a later place is what was behind the earlier one, up to there. -/
theorem ahead_of_le {it : BreakIterator} {place : Nat} (h : it.place ≤ place) :
    ahead { it with place } = it.ahead.filter (place < ·.stop) := by
  rw [ahead, ahead, List.filter_filter]
  refine List.filter_congr fun b _ ↦ ?_
  rw [Bool.eq_iff_iff, Bool.and_eq_true, decide_eq_true_iff, decide_eq_true_iff]
  exact ⟨fun hb ↦ ⟨hb, Nat.lt_of_le_of_lt h hb⟩, And.left⟩

/-- A boundary that is found is ahead no longer. -/
theorem ahead_length_lt {it it' : BreakIterator} {b : Boundary} (h : it.next? = some (b, it')) :
    it'.ahead.length < it.ahead.length := by
  obtain ⟨c, hfind, heq⟩ := Option.map_eq_some_iff.1 h
  obtain ⟨rfl, rfl⟩ := Prod.mk.inj heq
  have hlt : it.place < c.stop := by simpa using List.find?_some hfind
  have hmem : c ∈ it.ahead := List.mem_filter.2
    ⟨List.mem_of_find?_eq_some hfind, by simpa using hlt⟩
  rw [ahead_of_le (Nat.le_of_lt hlt)]
  exact List.length_filter_lt_length_iff_exists.2 ⟨c, hmem, by simp⟩

end BreakIterator

/-! ### Iterators that cannot be had -/

/-- What comes of it when an iterator over a text is asked for: one is made when the analyzer is,
each stream has a copy, and the copy takes on the text. -/
structure IteratorSupply where
  /-- The name of the error at which no iterator is made. -/
  makingError : Option Bytes := none
  /-- Whether an iterator can be copied. -/
  copies : Bool := true
  /-- The name of the error at which an iterator does not take on a text. -/
  settingError : Bytes → Option Bytes := fun _ ↦ none

/-- Why there is no stream. -/
inductive StreamFault where
  | notMade (error : Bytes)
  | notCopied
  | notSet (error : Bytes)
  deriving DecidableEq, Repr

/-- What is said of a fault. -/
def StreamFault.message : StreamFault → Bytes
  | notMade error => utf8 "Cannot create word break iterator: " ++ error
  | notCopied => utf8 "Cannot clone word break iterator"
  | notSet error => utf8 "Cannot set break iterator text: " ++ error

/-! ### Streams -/

/-- A text that is being read token by token. -/
structure TokenStream where
  analyzer : Analyzer
  text : Bytes
  field : Bytes
  /-- Whether words are stemmed. -/
  stemmed : Bool
  iterator : BreakIterator
  /-- Where the piece of the text begins that ends at the next boundary. -/
  start : Nat
  /-- The position of the next word. -/
  position : UInt32

namespace TokenStream

/-- A stream at the beginning of a text. -/
def atStart (analyzer : Analyzer) (text field : Bytes) (stemmed : Bool) : TokenStream :=
  ⟨analyzer, text, field, stemmed, ⟨analyzer.orthography.boundaries text, 0⟩, 0, 0⟩

/-- A stream over the text of a field, whose words are stemmed if there is a stemmer. -/
def ofText (analyzer : Analyzer) (text field : Bytes) : TokenStream :=
  atStart analyzer text field true

/-- A stream at the beginning of a text, if it gets its iterator. -/
def open? (supply : IteratorSupply) (analyzer : Analyzer) (text field : Bytes)
    (stemmed : Bool) : Except StreamFault TokenStream :=
  match supply.makingError with
  | some error => .error (.notMade error)
  | none =>
    if !supply.copies then .error .notCopied
    else
      match supply.settingError text with
      | some error => .error (.notSet error)
      | none => .ok (atStart analyzer text field stemmed)

/-- The piece of the text up to a boundary. -/
def piece (s : TokenStream) (b : Boundary) : Bytes :=
  (s.text.drop s.start).take (b.stop - s.start)

/-- The next token, or `none` at the end of the text, and the stream after it. -/
def next (s : TokenStream) : Option Token × TokenStream :=
  match _h : s.iterator.next? with
  | none => (none, s)
  | some (b, iterator) =>
    if b.closesWord then
      match s.analyzer.term? s.stemmed (s.piece b) with
      | some term =>
        (some ⟨term, s.position, s.field⟩,
          { s with iterator, start := b.stop, position := s.position + 1 })
      | none => next { s with iterator, start := b.stop, position := s.position + 1 }
    else
      next { s with iterator, start := b.stop }
termination_by s.iterator.ahead.length
decreasing_by all_goals exact BreakIterator.ahead_length_lt _h

/-- A stream that hands out a token has passed a boundary. -/
theorem ahead_length_lt_of_next {s later : TokenStream} {token : Token}
    (h : s.next = (some token, later)) :
    later.iterator.ahead.length < s.iterator.ahead.length := by
  fun_induction next s with
  | case1 s hnone => cases h
  | case2 s b it hnext hword term hterm =>
    cases h
    exact BreakIterator.ahead_length_lt hnext
  | case3 s b it hnext hword hterm ih =>
    exact Nat.lt_trans (ih h) (BreakIterator.ahead_length_lt hnext)
  | case4 s b it hnext hword ih =>
    exact Nat.lt_trans (ih h) (BreakIterator.ahead_length_lt hnext)

/-- The tokens that are handed out up to the end of the text. -/
def drain (s : TokenStream) : List Token :=
  match _h : s.next with
  | (some token, later) => token :: later.drain
  | (none, _) => []
termination_by s.iterator.ahead.length
decreasing_by exact ahead_length_lt_of_next _h

/-- The stream at the beginning of its text again. -/
def reset (s : TokenStream) : TokenStream :=
  { s with iterator := s.iterator.first, start := 0, position := 0 }

end TokenStream

end Concordance
