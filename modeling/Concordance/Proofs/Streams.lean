import Concordance.Analyzer.Stream
import Concordance.Proofs.Numbers
import Concordance.Text.Table
import Mathlib.Data.List.DropRight

/-!
# A token stream against the token list

A token stream is read by asking for the next token and by starting it again, in any order and as
often as one likes. What it answers depends only on how often it has been asked since it was last
started (`TokenStream.asked`): it is the token of that number in the list of all tokens, and the end
if there is none (`TokenStream.next_after`).

The stream knows neither the list nor the number. It keeps the place of its iterator, the beginning
of the next piece of the text and the position of the next word, and these are in step
(`TokenStream.InStep`): the piece begins where the iterator stands, and the position is the number
of the words that end there or before. So the iterator alone tells which tokens are still to come
(`TokenStream.pending`). Asking takes the first of them off, whatever words without a term and
pieces between words have to be passed for it, and starting again restores all of them.
-/

namespace Concordance

/-! ### Boundaries passed and ahead -/

namespace BreakIterator

/-- The boundaries of a text are listed from its beginning on. -/
def IsAscending (it : BreakIterator) : Prop :=
  it.boundaries.Pairwise (·.stop < ·.stop)

/-- The boundaries at or before the place of the iterator. -/
def passed (it : BreakIterator) : List Boundary :=
  it.boundaries.filter (·.stop ≤ it.place)

variable {it : BreakIterator}

/-- Every boundary has been passed or is ahead. -/
theorem passed_append_ahead (h : it.IsAscending) : it.passed ++ it.ahead = it.boundaries := by
  obtain ⟨boundaries, place⟩ := it
  rw [passed, ahead]
  dsimp only
  induction boundaries with
  | nil => rfl
  | cons b bs ih =>
    obtain ⟨hb, hbs⟩ := List.pairwise_cons.1 h
    by_cases hle : b.stop ≤ place
    · rw [List.filter_cons_of_pos (by simpa using hle),
        List.filter_cons_of_neg (by simpa using hle),
        List.cons_append, ih hbs]
    · -- so do all that follow
      have hpassed : bs.filter (·.stop ≤ place) = [] := by
        refine List.filter_eq_nil_iff.2 fun c hc ↦ ?_
        have hlt := hb c hc
        rw [decide_eq_true_iff]
        omega
      have hahead : bs.filter (place < ·.stop) = bs := by
        rw [← List.nil_append (bs.filter _), ← hpassed, ih hbs]
      rw [List.filter_cons_of_neg (by simpa using hle),
        List.filter_cons_of_pos (by simpa using hle),
        hpassed, hahead, List.nil_append]

/-- The next boundary is the first ahead. -/
theorem next?_eq (it : BreakIterator) :
    it.next? = it.ahead.head?.map fun b ↦ (b, { it with place := b.stop }) := by
  rw [next?, ahead, List.head?_filter]

/-- **At the first boundary ahead** the others are ahead, and it is passed. -/
theorem passed_ahead_of_cons (h : it.IsAscending) {b : Boundary} {bs : List Boundary}
    (hahead : it.ahead = b :: bs) :
    passed { it with place := b.stop } = it.passed ++ [b] ∧
      ahead { it with place := b.stop } = bs := by
  have hlt : it.place < b.stop := by
    have hmem : b ∈ it.ahead := hahead ▸ List.mem_cons_self
    simpa using (List.mem_filter.1 hmem).2
  have hascending : (b :: bs).Pairwise (·.stop < ·.stop) := hahead ▸ h.filter _
  have hrest : ahead { it with place := b.stop } = bs := by
    rw [ahead_of_le (Nat.le_of_lt hlt), hahead, List.filter_cons_of_neg (by simp),
      List.filter_eq_self]
    exact fun c hc ↦ decide_eq_true ((List.pairwise_cons.1 hascending).1 c hc)
  have hafter : passed { it with place := b.stop } ++ ahead { it with place := b.stop } =
      it.boundaries := passed_append_ahead h
  have hsplit : passed { it with place := b.stop } ++ bs = it.passed ++ [b] ++ bs :=
    calc
      _ = it.boundaries := hrest ▸ hafter
      _ = it.passed ++ it.ahead := (passed_append_ahead h).symm
      _ = _ := by rw [hahead, List.append_cons]
  exact ⟨List.append_cancel_right hsplit, hrest⟩

end BreakIterator

namespace TokenStream

/-! ### What one does with a stream -/

/-- A call on a stream. -/
inductive Call where
  | next
  | reset
  deriving DecidableEq, Repr

/-- The stream after a call. -/
def act (s : TokenStream) : Call → TokenStream
  | .next => s.next.2
  | .reset => s.reset

/-- The stream after several calls, the first of which stands first. -/
def after (s : TokenStream) (calls : List Call) : TokenStream :=
  calls.foldl act s

/-- How often a stream has been asked for a token since it was last started. -/
def asked (calls : List Call) : Nat :=
  (calls.rtakeWhile (· = .next)).length

/-- The last call is made on what the others have left. -/
theorem after_concat (s : TokenStream) (calls : List Call) (call : Call) :
    s.after (calls ++ [call]) = (s.after calls).act call := by
  rw [after, List.foldl_append]
  rfl

theorem asked_concat_next (calls : List Call) :
    asked (calls ++ [.next]) = asked calls + 1 := by
  rw [asked, List.rtakeWhile_concat_pos _ _ _ (by simp), List.length_append, List.length_singleton,
    asked]

theorem asked_concat_reset (calls : List Call) : asked (calls ++ [.reset]) = 0 := by
  rw [asked, List.rtakeWhile_concat_neg _ _ _ (by simp), List.length_nil]

/-! ### In step -/

/-- The parts of the state of a stream are in step: the iterator goes over the boundaries of the
text, the next piece begins at its place, and the next word has the number of the words passed, as a
word of 32 bits. -/
structure InStep (s : TokenStream) : Prop where
  boundaries : s.iterator.boundaries = s.analyzer.orthography.boundaries s.text
  start : s.start = s.iterator.place
  position : s.position = (s.iterator.passed.countP (·.closesWord)).toUInt32

/-- The tokens that a stream has still to hand out, by the place of its iterator. -/
def pending (s : TokenStream) : List Token :=
  s.analyzer.tokensFrom s.stemmed s.field (s.iterator.passed.countP (·.closesWord)).toUInt32
    (Orthography.wordsFrom s.iterator.place (s.text.drop s.iterator.place) s.iterator.ahead)

/-- The token of the piece up to a boundary, if it is a word that has one. -/
def token? (s : TokenStream) (b : Boundary) : Option Token :=
  if b.closesWord then
    (s.analyzer.term? s.stemmed (s.piece b)).map fun term ↦ ⟨term, s.position, s.field⟩
  else none

/-- The stream behind a boundary. -/
def pass (s : TokenStream) (b : Boundary) : TokenStream :=
  { s with
    iterator := { s.iterator with place := b.stop }
    start := b.stop
    position := if b.closesWord then s.position + 1 else s.position }

/-- A stream in step has boundaries that ascend. -/
theorem InStep.isAscending {s : TokenStream} (h : s.InStep) : s.iterator.IsAscending := by
  rw [BreakIterator.IsAscending, h.boundaries]
  exact s.analyzer.orthography.ascending s.text

/-- Where it begins, a stream is in step. -/
theorem inStep_of_first {s : TokenStream}
    (hboundaries : s.iterator.boundaries = s.analyzer.orthography.boundaries s.text)
    (hplace : s.iterator.place = 0) (hstart : s.start = 0) (hposition : s.position = 0) :
    s.InStep ∧ s.pending =
      s.analyzer.tokensFrom s.stemmed s.field 0 (s.analyzer.orthography.words s.text) := by
  have hinside := s.analyzer.orthography.inside s.text
  have hpassed : s.iterator.passed = [] := by
    refine List.filter_eq_nil_iff.2 fun b hb ↦ ?_
    have hpos := (hinside b (hboundaries ▸ hb)).1
    rw [decide_eq_true_iff, hplace]
    omega
  have hahead : s.iterator.ahead = s.iterator.boundaries := by
    refine List.filter_eq_self.2 fun b hb ↦ ?_
    have hpos := (hinside b (hboundaries ▸ hb)).1
    rw [decide_eq_true_iff, hplace]
    omega
  refine ⟨⟨hboundaries, hstart.trans hplace.symm, by rw [hpassed, hposition]; rfl⟩, ?_⟩
  rw [pending, hpassed, hahead, hplace, hboundaries, List.drop_zero]
  rfl

/-- **Passing a boundary keeps a stream in step**, and takes the token there, if there is one, off
those to come. -/
theorem InStep.pass {s : TokenStream} (h : s.InStep) {b : Boundary} {bs : List Boundary}
    (hahead : s.iterator.ahead = b :: bs) :
    (s.pass b).InStep ∧ s.pending = (s.token? b).toList ++ (s.pass b).pending := by
  obtain ⟨hpassed, hrest⟩ := BreakIterator.passed_ahead_of_cons h.isAscending hahead
  have hlt : s.iterator.place < b.stop := by
    have hmem : b ∈ s.iterator.ahead := hahead ▸ List.mem_cons_self
    simpa using (List.mem_filter.1 hmem).2
  have hcount : (s.pass b).position =
      ((s.pass b).iterator.passed.countP (·.closesWord)).toUInt32 := by
    have hlast : (s.pass b).iterator.passed = s.iterator.passed ++ [b] := hpassed
    rw [hlast, List.countP_append, List.countP_singleton, TokenStream.pass]
    dsimp only
    rw [h.position]
    split
    · exact (toUInt32_add _ 1).symm
    · rfl
  refine ⟨⟨h.boundaries, rfl, hcount⟩, ?_⟩
  have hdrop : (s.text.drop s.iterator.place).drop (b.stop - s.iterator.place) =
      s.text.drop b.stop := by
    rw [List.drop_drop, Nat.add_sub_cancel' (Nat.le_of_lt hlt)]
  have hlater : (s.pass b).pending = s.analyzer.tokensFrom s.stemmed s.field (s.pass b).position
      (Orthography.wordsFrom b.stop (s.text.drop b.stop) bs) := by
    have hrest : (s.pass b).iterator.ahead = bs := hrest
    rw [pending, ← hcount, hrest]
    rfl
  rw [pending, ← h.position, hahead, Orthography.wordsFrom, hdrop, hlater, token?, piece, h.start]
  by_cases hword : b.closesWord = true
  · rw [if_pos hword, if_pos hword, Analyzer.tokensFrom, TokenStream.pass]
    dsimp only
    rw [if_pos hword]
    cases s.analyzer.term? s.stemmed _ <;> rfl
  · rw [if_neg hword, if_neg hword, TokenStream.pass]
    dsimp only
    rw [if_neg hword]
    rfl

/-! ### Asking -/

/-- At the end of the text nothing is to come. -/
theorem pending_of_next?_eq_none {s : TokenStream} (h : s.iterator.next? = none) :
    s.pending = [] := by
  rw [BreakIterator.next?_eq, Option.map_eq_none_iff, List.head?_eq_none_iff] at h
  rw [pending, h]
  rfl

theorem exists_ahead_of_next? {s : TokenStream} {b : Boundary} {it : BreakIterator}
    (h : s.iterator.next? = some (b, it)) :
    it = { s.iterator with place := b.stop } ∧ ∃ bs, s.iterator.ahead = b :: bs := by
  rw [BreakIterator.next?_eq, Option.map_eq_some_iff] at h
  obtain ⟨c, hhead, heq⟩ := h
  obtain ⟨rfl, rfl⟩ := Prod.mk.inj heq
  obtain ⟨bs, hahead⟩ := List.head?_eq_some_iff.1 hhead
  exact ⟨rfl, bs, hahead⟩

/-- What asking leaves as it is. -/
structure SameText (s t : TokenStream) : Prop where
  analyzer : t.analyzer = s.analyzer
  text : t.text = s.text
  field : t.field = s.field
  stemmed : t.stemmed = s.stemmed

/-- **Asking takes the first token off those to come**, and there is none exactly if none is to
come. The stream stays in step. -/
theorem InStep.next {s : TokenStream} (h : s.InStep) :
    s.next.1 = s.pending.head? ∧ s.next.2.InStep ∧ s.next.2.pending = s.pending.tail ∧
      s.SameText s.next.2 := by
  fun_induction TokenStream.next s with
  | case1 s hnone =>
    rw [pending_of_next?_eq_none hnone]
    exact ⟨rfl, h, rfl, rfl, rfl, rfl, rfl⟩
  | case2 s b it hnext hword term hterm =>
    obtain ⟨rfl, bs, hahead⟩ := exists_ahead_of_next? hnext
    obtain ⟨hstep, hpending⟩ := h.pass hahead
    rw [token?, if_pos hword, hterm] at hpending
    rw [TokenStream.pass, if_pos hword] at hstep hpending
    rw [hpending]
    exact ⟨rfl, hstep, rfl, rfl, rfl, rfl, rfl⟩
  | case3 s b it hnext hword hterm ih =>
    obtain ⟨rfl, bs, hahead⟩ := exists_ahead_of_next? hnext
    obtain ⟨hstep, hpending⟩ := h.pass hahead
    rw [token?, if_pos hword, hterm] at hpending
    rw [TokenStream.pass, if_pos hword] at hstep hpending
    rw [hpending]
    obtain ⟨hfirst, hin, hrest, hsame⟩ := ih hstep
    exact ⟨hfirst, hin, hrest, hsame.analyzer, hsame.text, hsame.field, hsame.stemmed⟩
  | case4 s b it hnext hword ih =>
    obtain ⟨rfl, bs, hahead⟩ := exists_ahead_of_next? hnext
    obtain ⟨hstep, hpending⟩ := h.pass hahead
    rw [token?, if_neg hword] at hpending
    rw [TokenStream.pass, if_neg hword] at hstep hpending
    rw [hpending]
    obtain ⟨hfirst, hin, hrest, hsame⟩ := ih hstep
    exact ⟨hfirst, hin, hrest, hsame.analyzer, hsame.text, hsame.field, hsame.stemmed⟩

/-- **A stream hands out all that is to come.** -/
theorem InStep.drain {s : TokenStream} (h : s.InStep) : s.drain = s.pending := by
  fun_induction TokenStream.drain s with
  | case1 s token later hnext ih =>
    obtain ⟨hfirst, hin, hrest, -⟩ := h.next
    rw [hnext] at hfirst hin hrest
    rw [ih hin, hrest]
    exact List.cons_head?_tail hfirst.symm
  | case2 s later hnext =>
    obtain ⟨hfirst, -⟩ := h.next
    rw [hnext] at hfirst
    exact (List.head?_eq_none_iff.1 hfirst.symm).symm

/-- **All tokens of a text** are what a stream over it hands out, one after the other. -/
theorem drain_atStart (a : Analyzer) (text field : Bytes) (stemmed : Bool) :
    (atStart a text field stemmed).drain =
      a.tokensFrom stemmed field 0 (a.orthography.words text) := by
  obtain ⟨hin, hpending⟩ := inStep_of_first (s := atStart a text field stemmed) rfl rfl rfl rfl
  exact hin.drain.trans hpending

/-! ### Runs -/

/-- A stream over a text has handed out so many of its tokens. -/
structure HasRead (a : Analyzer) (text field : Bytes) (stemmed : Bool) (n : Nat) (s : TokenStream) :
    Prop where
  same : (atStart a text field stemmed).SameText s
  inStep : s.InStep
  pending : s.pending = (atStart a text field stemmed).drain.drop n

variable {a : Analyzer} {text field : Bytes} {stemmed : Bool}

/-- In the beginning nothing has been read. -/
theorem hasRead_atStart (a : Analyzer) (text field : Bytes) (stemmed : Bool) :
    (atStart a text field stemmed).HasRead a text field stemmed 0 := by
  obtain ⟨hin, -⟩ := inStep_of_first (s := atStart a text field stemmed) rfl rfl rfl rfl
  exact ⟨⟨rfl, rfl, rfl, rfl⟩, hin, hin.drain.symm⟩

/-- Each call for the next token reads one more. -/
theorem HasRead.next {n : Nat} {s : TokenStream} (h : s.HasRead a text field stemmed n) :
    s.next.2.HasRead a text field stemmed (n + 1) := by
  obtain ⟨-, hin, hrest, hsame⟩ := h.inStep.next
  refine ⟨⟨hsame.analyzer.trans h.same.analyzer, hsame.text.trans h.same.text,
    hsame.field.trans h.same.field, hsame.stemmed.trans h.same.stemmed⟩, hin, ?_⟩
  rw [hrest, h.pending, List.tail_drop]

/-- After a reset it is as in the beginning. -/
theorem HasRead.reset {n : Nat} {s : TokenStream} (h : s.HasRead a text field stemmed n) :
    s.reset.HasRead a text field stemmed 0 := by
  obtain ⟨hin, hpending⟩ := inStep_of_first (s := s.reset) h.inStep.boundaries rfl rfl rfl
  refine ⟨⟨h.same.analyzer, h.same.text, h.same.field, h.same.stemmed⟩, hin, ?_⟩
  rw [hpending, drain_atStart]
  show s.analyzer.tokensFrom s.stemmed s.field 0 (s.analyzer.orthography.words s.text) = _
  rw [h.same.analyzer, h.same.text, h.same.field, h.same.stemmed]
  rfl

/-- **Calls in any order** leave a stream in step, and it has handed out as many tokens as it has
been asked for since it was last started. -/
theorem hasRead_after (a : Analyzer) (text field : Bytes) (stemmed : Bool) (calls : List Call) :
    ((atStart a text field stemmed).after calls).HasRead a text field stemmed (asked calls) := by
  induction calls using List.reverseRecOn with
  | nil => exact hasRead_atStart a text field stemmed
  | append_singleton calls call ih =>
    rw [after_concat]
    cases call with
    | next =>
      rw [asked_concat_next]
      exact ih.next
    | reset =>
      rw [asked_concat_reset]
      exact ih.reset

/-! ### Streams that can be had -/

/-- **A stream is had** exactly if there is an iterator, it can be copied and the copy takes on the
text; it begins at the beginning of the text. -/
theorem open?_eq_ok_iff {supply : IteratorSupply} {s : TokenStream} :
    open? supply a text field stemmed = .ok s ↔
      (supply.makingError = none ∧ supply.copies = true ∧ supply.settingError text = none) ∧
        s = atStart a text field stemmed := by
  rw [open?]
  rcases supply.makingError with _ | error
  · rcases supply.copies with _ | _
    · exact iff_of_false nofun fun h ↦ Bool.false_ne_true h.1.2.1
    · rcases supply.settingError text with _ | error
      · exact ⟨fun h ↦ ⟨⟨rfl, rfl, rfl⟩, (Except.ok.inj h).symm⟩, fun h ↦ congrArg _ h.2.symm⟩
      · exact iff_of_false nofun fun h ↦ Option.some_ne_none error h.1.2.2
  · exact iff_of_false nofun fun h ↦ Option.some_ne_none error h.1.1

/-- **A token stream is a restartable view of the token list.** Whatever calls it has had, the next
answer of a stream over a text is the token whose number in the list of all tokens is how often the
stream has been asked since it was last started, with its position and its field; and it is the end
if the list has no such token, also if the end has been reached before. The list is that of the
words of the text with a term, each at the number of its word. -/
theorem next_after {supply : IteratorSupply} {s : TokenStream}
    (h : open? supply a text field true = .ok s) (calls : List Call) :
    (s.after calls).next.1 = s.drain[asked calls]? ∧ s.drain = a.tokens text field := by
  obtain ⟨-, rfl⟩ := open?_eq_ok_iff.1 h
  obtain ⟨-, hin, hpending⟩ := hasRead_after a text field true calls
  refine ⟨?_, drain_atStart a text field true⟩
  rw [hin.next.1, hpending, List.head?_drop]

/-- A stream that is started again between two words. -/
theorem next_after_reset :
    let s := ofText {} (utf8 "red hat") (utf8 "title")
    open? {} {} (utf8 "red hat") (utf8 "title") true = .ok s ∧
      (s.after [.next, .next, .reset, .next]).next.1 = some ⟨utf8 "hat", 1, utf8 "title"⟩ := by
  intro s
  have hopen : open? {} {} (utf8 "red hat") (utf8 "title") true = .ok s := by rfl
  obtain ⟨hnext, hdrain⟩ := next_after hopen [.next, .next, .reset, .next]
  refine ⟨hopen, ?_⟩
  rw [hnext, hdrain]
  decide +kernel

end TokenStream

end Concordance
