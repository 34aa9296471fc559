import Concordance.Proofs.EngineHistory
import Concordance.Proofs.KnownMatches
import Concordance.Proofs.LoadedSearch
import Concordance.Proofs.Paging
import Concordance.Proofs.Positions
import Concordance.Proofs.Storage
import Concordance.Session.Basic

/-!
# What a session shows

A session that could be started, and asks for pages that can be made, comes to its end whatever it
is asked. The index has been read from a file, so it is sound, and the only errors left are those of
the query (`answers_block`); they point into it. So each line has an answer of its own, which is the
same wherever the line stands, and what is shown is the answers in the order of the lines
(`Transcript`).
-/

namespace Concordance

/-! ### Lines -/

namespace Bytes

variable {s line rest : Bytes}

/-- The first line of a text, and what comes after it. A line ends at a line feed, or with the
text. -/
inductive FirstLine : Bytes → Bytes → Bytes → Prop
  | ended {line : Bytes} (rest : Bytes) (h : 10 ∉ line) : FirstLine (line ++ 10 :: rest) line rest
  | last {line : Bytes} (h : 10 ∉ line) (hne : line ≠ []) : FirstLine line line []

theorem ne_and_notMem_of_notMem_cons {b : UInt8} (h : 10 ∉ b :: s) : b ≠ 10 ∧ 10 ∉ s :=
  ⟨(List.ne_of_not_mem_cons h).symm, List.not_mem_of_not_mem_cons h⟩

/-- A byte that does not end the line belongs to it. -/
theorem FirstLine.cons {b : UInt8} (hb : b ≠ 10) (h : FirstLine s line rest) :
    FirstLine (b :: s) (b :: line) rest := by
  cases h with
  | ended rest h => exact .ended rest (List.not_mem_cons_of_ne_of_not_mem (Ne.symm hb) h)
  | last h hne =>
    exact .last (List.not_mem_cons_of_ne_of_not_mem (Ne.symm hb) h) (List.cons_ne_nil _ _)

/-- Every text but the empty one has a first line. -/
theorem exists_firstLine (h : s ≠ []) :
    ∃ line rest, FirstLine s line rest ∧ rest.length < s.length := by
  induction s with
  | nil => exact absurd rfl h
  | cons b s ih =>
    by_cases hb : b = 10
    · subst hb
      exact ⟨[], s, .ended s List.not_mem_nil, Nat.lt_succ_self _⟩
    · rcases eq_or_ne s [] with rfl | hs
      · exact ⟨[b], [], .last (by simpa using Ne.symm hb) (List.cons_ne_nil _ _), Nat.zero_lt_one⟩
      · obtain ⟨line, rest, hline, hlt⟩ := ih hs
        exact ⟨b :: line, rest, hline.cons hb, Nat.lt_succ_of_lt hlt⟩

theorem lines_singleton {b : UInt8} (hb : b ≠ 10) : lines [b] = [[b]] := by
  simp only [lines, if_neg hb]

/-- So it belongs to the first of the lines. -/
theorem lines_cons {b : UInt8} (hb : b ≠ 10) (hs : s ≠ []) {more : List Bytes}
    (h : lines s = line :: more) : lines (b :: s) = (b :: line) :: more := by
  rw [lines, if_neg hb, h]
  exact hs

/-- **The lines of a text** are its first line and those of the rest. -/
theorem FirstLine.lines (h : FirstLine s line rest) : lines s = line :: lines rest := by
  cases h with
  | ended rest h =>
    induction line with
    | nil => rfl
    | cons b line ih =>
      obtain ⟨hb, h⟩ := ne_and_notMem_of_notMem_cons h
      exact lines_cons hb (by simp) (ih h)
  | last h hne =>
    induction s with
    | nil => exact absurd rfl hne
    | cons b line ih =>
      obtain ⟨hb, h⟩ := ne_and_notMem_of_notMem_cons h
      rcases eq_or_ne line [] with rfl | hline
      · exact lines_singleton hb
      · exact lines_cons hb hline (ih h hline)

end Bytes

namespace Session

variable {s : Session} {elapsed query : Bytes}

/-! ### One answer -/

/-- The results of a page as they are shown, the first with the given number: for each a line with
its number, its document and its score to four places, and if explanations are asked for a line for
each field with the terms that matched in it. -/
inductive ShowsResults (s : Session) : Nat → Matches → Bytes → Prop
  | nil (number : Nat) : ShowsResults s number [] []
  | cons {number : Nat} {m : Match} {ms : Matches} {explanation later : Bytes}
      (hexplanation : explanation = if s.options.explain then m.explanation.entries.flatMap fun e ↦
        utf8 "     " ++ e.1 ++ utf8 ":" ++ e.2.toList.flatMap (utf8 " " ++ ·) ++ utf8 "\n" else [])
      (hlater : ShowsResults s (number + 1) ms later) :
      ShowsResults s number (m :: ms) (decimal number ++ utf8 ". " ++ m.doc ++ utf8 "  " ++
        Decimal.fixed 4 s.engine.scorer.undefined m.score ++ utf8 "\n" ++ explanation ++ later)

/-- What is wrong with a query as it is shown: in words, and by a caret below the byte at fault. A
message ends at its first zero byte. -/
def IsPointer (fault : QueryFault) (position : Nat) (query text : Bytes) : Prop :=
  text = utf8 "Syntax error: " ++
    (fault.message ++ utf8 " at position " ++ decimal position).takeWhile (· != 0) ++
    utf8 "\n  " ++ query ++ utf8 "\n  " ++ List.replicate position 32 ++ utf8 "^\n"

/-- The answer to a query, with what is logged before it: a page of its ranking, or what is wrong
with it and where. The place lies in the query. -/
inductive Answers (s : Session) (elapsed query : Bytes) : List LogMessage → Bytes → Prop
  | page {q : Query} {ranking : Matches} {results : Bytes} (hparse : Query.parse query = .ok q)
      (hevaluate : s.engine.searcher.evaluate s.options q = .ok ranking)
      (hresults : s.ShowsResults 1
        ((ranking.drop s.options.offset.toNat).take s.options.limit.toNat) results) :
      Answers s elapsed query
        [.evaluating q s.engine.index, .answered elapsed query ranking.length]
        (utf8 "\n=== Query: " ++ query ++ utf8 " ===\nFound: " ++ decimal ranking.length ++
          utf8 " in " ++ elapsed ++ utf8 " ms\n\n" ++ results)
  | malformed {fault : QueryFault} {position : Nat} {text : Bytes}
      (hparse : Query.parse query = .error (.query fault position))
      (hposition : position ≤ query.length) (htext : IsPointer fault position query text) :
      Answers s elapsed query [] text
  | refused {q : Query} {fault : QueryFault} {position : Nat} {text : Bytes}
      (hparse : Query.parse query = .ok q)
      (hevaluate : s.engine.searcher.evaluate s.options q = .error (.query fault position))
      (hposition : position ≤ query.length) (htext : IsPointer fault position query text) :
      Answers s elapsed query [.evaluating q s.engine.index] text

/-- What is shown for a query that has an answer. -/
def block [Logger] (s : Session) (elapsed query : Bytes) : Bytes :=
  logged s.verbose (s.engine.searchLog s.options elapsed query) ++
    match s.answer elapsed query with
    | .ok shown => shown
    | .error _ => []

/-- A session that asks for pages that can be made, of an index that has been read. -/
structure IsReady (s : Session) : Prop where
  limit : s.options.limit ≠ 0
  distance : 0 ≤ s.options.maxDistance
  window : s.options.offset.toNat + s.options.limit.toNat < 2 ^ 64
  cancelled : s.options.cancelled = false
  sound : s.engine.index.IsSound
  size : s.engine.index.documents.size < 2 ^ 64

theorem showsResults (s : Session) (number : Nat) (ms : Matches) :
    s.ShowsResults number ms (s.resultTexts number ms) := by
  induction ms generalizing number with
  | nil => exact .nil number
  | cons m ms ih => exact .cons rfl (ih (number + 1))

theorem isPointer_faultText (query : Bytes) (fault : QueryFault) (position : Nat) :
    IsPointer fault position query (faultText query fault position) :=
  rfl

/-- **Every query has an answer.** The index is sound, so an evaluation that fails does so at a node
of the query, and the ranking is too short for its pages to be refused. -/
theorem exists_answers (h : s.IsReady) (elapsed query : Bytes) :
    ∃ shown, s.answer elapsed query = .ok shown ∧
      s.Answers elapsed query (s.engine.searchLog s.options elapsed query) shown := by
  have hasks : ¬ (s.options.limit = 0 ∨ s.options.maxDistance < 0) :=
    not_or.2 ⟨h.limit, Int32.not_lt.2 h.distance⟩
  have hsearch := Engine.search_eq_bind (e := s.engine) h.limit (Int32.not_lt.2 h.distance) query
  rw [Engine.searchLog, if_neg hasks]
  rcases Query.within_parse query with
    ⟨q, hparse, hrule, hwithin⟩ | ⟨fault, position, hparse, hposition⟩
  · rw [hparse, Passes.ok_bind] at hsearch
    rw [hparse]
    cases Searcher.settles (s := s.engine.searcher) h.sound h.cancelled q with
    | @finds found hmatches hordered =>
      have hevaluate := Searcher.evaluate_of_ordered hrule hmatches hordered
      have hlength : found.ranked.length ≤ s.engine.index.documents.size :=
        Searcher.length_le_of_evaluate h.cancelled hevaluate
      have hwindow := h.window
      rw [hevaluate, Passes.ok_bind, Engine.page_eq (by have := h.size; omega),
        if_neg (by omega)] at hsearch
      rw [answer, reply, hsearch]
      exact ⟨_, rfl, .page hparse hevaluate (s.showsResults 1 _)⟩
    | fails herror hmeets =>
      have hevaluate := Searcher.evaluate_of_error hrule herror
      rw [hevaluate] at hsearch
      rw [answer, reply, hsearch]
      exact ⟨_, rfl, .refused hparse hevaluate (hmeets.isWithin hwithin)
        (isPointer_faultText query _ _)⟩
  · rw [hparse] at hsearch
    rw [hparse, answer, reply, hsearch]
    exact ⟨_, rfl, .malformed hparse hposition (isPointer_faultText query fault position)⟩

/-- So what is shown for a query is its block. -/
theorem answers_block [Logger] (h : s.IsReady) (elapsed query : Bytes) :
    ∃ messages shown, s.Answers elapsed query messages shown ∧
      s.block elapsed query = logged s.verbose messages ++ shown ∧
      s.asked elapsed query = [.ok (logged s.verbose messages), .ok shown] := by
  obtain ⟨shown, hshown, hanswers⟩ := exists_answers h elapsed query
  exact ⟨_, shown, hanswers, by rw [block, hshown], by rw [asked, hshown]⟩

/-! ### A conversation -/

/-- What is shown for the input of an interactive session, where each line that is asked has a block
of its own: the prompt, and the block unless the line is empty, up to a line that ends the session
or to the end of the input. -/
inductive Transcript (block : Bytes → Bytes) : Bytes → Bytes → Prop
  | ends : Transcript block [] (utf8 "\n> ")
  | quits {input line rest : Bytes} (hline : input.FirstLine line rest)
      (hends : line = utf8 "quit" ∨ line = utf8 "exit") : Transcript block input (utf8 "\n> ")
  | passes {input rest shown : Bytes} (hline : input.FirstLine [] rest)
      (later : Transcript block rest shown) : Transcript block input (utf8 "\n> " ++ shown)
  | answers {input line rest shown : Bytes} (hline : input.FirstLine line rest) (hne : line ≠ [])
      (hgoes : line ≠ utf8 "quit" ∧ line ≠ utf8 "exit") (later : Transcript block rest shown) :
      Transcript block input (utf8 "\n> " ++ block line ++ shown)

/-- Things that are shown one after another, none of them an error. -/
def Shows (l : List (Except Error Bytes)) (text : Bytes) : Prop :=
  ∃ pieces : List Bytes, l = pieces.map .ok ∧ pieces.flatten = text

/-- Nothing shows nothing. -/
theorem Shows.nil : Shows [] [] :=
  ⟨[], rfl, rfl⟩

/-- A piece is shown in front of what follows. -/
theorem Shows.cons {l : List (Except Error Bytes)} {text : Bytes} (piece : Bytes)
    (h : Shows l text) : Shows (.ok piece :: l) (piece ++ text) := by
  obtain ⟨pieces, rfl, rfl⟩ := h
  exact ⟨piece :: pieces, rfl, rfl⟩

/-- **What is shown one after another is shown in a row.** -/
theorem Shows.append {l l' : List (Except Error Bytes)} {text text' : Bytes} (h : Shows l text)
    (h' : Shows l' text') : Shows (l ++ l') (text ++ text') := by
  obtain ⟨pieces, rfl, rfl⟩ := h
  obtain ⟨pieces', rfl, rfl⟩ := h'
  exact ⟨pieces ++ pieces', List.map_append.symm, List.flatten_append⟩

/-- Where nothing is an error, all is shown and the run succeeds. -/
theorem Shows.outcome {l : List (Except Error Bytes)} {text : Bytes} (h : Shows l text) :
    outcome l = ⟨0, text, []⟩ := by
  obtain ⟨pieces, rfl, rfl⟩ := h
  induction pieces with
  | nil => rfl
  | cons piece pieces ih =>
    rw [List.map_cons, Session.outcome, ih]
    rfl

/-- Two words end a session. -/
theorem endsSession_iff {line : Bytes} :
    endsSession line = true ↔ line = utf8 "quit" ∨ line = utf8 "exit" := by
  rw [endsSession, Bool.or_eq_true, beq_iff_eq, beq_iff_eq]

/-- A query that is asked shows its block. -/
theorem shows_asked [Logger] (h : s.IsReady) (elapsed query : Bytes) :
    Shows (s.asked elapsed query) (s.block elapsed query) := by
  obtain ⟨messages, shown, -, hblock, hasked⟩ := answers_block h elapsed query
  rw [hblock, hasked]
  exact ⟨[logged s.verbose messages, shown], rfl, by simp⟩

/-- What is shown for lines, up to one that ends the session. -/
def replies [Logger] (s : Session) (elapsed : Bytes) (lines : List Bytes) :
    List (Except Error Bytes) :=
  (lines.takeWhile (!endsSession ·)).flatMap (fun line ↦
    .ok prompt :: s.lineAsked elapsed line) ++ [.ok prompt]

/-- Any other line is answered, behind a prompt. -/
theorem replies_cons [Logger] {line : Bytes} (h : endsSession line = false) (rest : List Bytes) :
    s.replies elapsed (line :: rest) =
      .ok prompt :: (s.lineAsked elapsed line ++ s.replies elapsed rest) := by
  rw [replies, List.takeWhile_cons_of_pos (by rw [h]; rfl), List.flatMap_cons, List.cons_append,
    List.cons_append, List.append_assoc]
  rfl

/-- **A conversation shows its transcript**, whatever the input is. -/
theorem exists_transcript [Logger] (h : s.IsReady) (elapsed input : Bytes) :
    ∃ shown, Transcript (s.block elapsed) input shown ∧
      Shows (s.replies elapsed (Bytes.lines input)) shown := by
  -- line by line, so the induction is on what is left of the input
  induction hlength : input.length using Nat.strong_induction_on generalizing input with
  | _ n ih =>
    rcases eq_or_ne input [] with rfl | hne
    · exact ⟨prompt, .ends, [prompt], rfl, List.append_nil _⟩
    · obtain ⟨line, rest, hline, hlt⟩ := Bytes.exists_firstLine hne
      rw [hline.lines]
      rcases hends : endsSession line with _ | _
      · obtain ⟨shown, hlater, hshows⟩ := ih rest.length (hlength ▸ hlt) rest rfl
        rw [replies_cons hends, lineAsked]
        rcases eq_or_ne line [] with rfl | hline'
        · exact ⟨prompt ++ shown, .passes hline hlater, .cons prompt hshows⟩
        · rw [if_neg fun hnil ↦ hline' (List.isEmpty_iff.1 hnil)]
          have hgoes := not_or.1 fun hquit ↦
            Bool.false_ne_true (hends.symm.trans (endsSession_iff.2 hquit))
          refine ⟨prompt ++ s.block elapsed line ++ shown, .answers hline hline' hgoes hlater, ?_⟩
          rw [List.append_assoc]
          exact .cons prompt ((shows_asked h elapsed line).append hshows)
      · refine ⟨prompt, .quits hline (endsSession_iff.1 hends), ?_⟩
        rw [replies, List.takeWhile_cons_of_neg (by rw [hends]; simp)]
        exact ⟨[prompt], rfl, List.append_nil _⟩

/-! ### A whole run -/

/-- What the arguments can be asked to show before the input is read. -/
theorem shows_opening [Logger] (h : s.IsReady) (inv : Invocation) (elapsed : Bytes) :
    Shows (s.opening inv elapsed) ((if inv.stats then s.statsText else []) ++
      if inv.query = [] then [] else s.block elapsed inv.query) := by
  refine .append ?_ ?_
  · split
    · exact ⟨[s.statsText], rfl, List.append_nil _⟩
    · exact .nil
  · simp only [List.isEmpty_iff]
    split
    · exact .nil
    · exact shows_asked h elapsed inv.query

/-- The figures of an index, a line each. -/
theorem statsText_eq (s : Session) : s.statsText =
    utf8 "Documents: " ++ decimal s.engine.index.documents.size ++ utf8 "\nTerms: " ++
      decimal s.engine.index.terms.size ++ utf8 "\nPostings: " ++
      decimal (s.engine.index.terms.values.map List.length).sum ++ utf8 "\nTokens: " ++
      decimal s.engine.index.tokens.toNat ++ utf8 "\n" := by
  rw [statsText, Index.stats, List.sum, List.foldr_map]

/-- What is logged is shown message by message. -/
theorem logged_append [Logger] (verbose : Bool) (messages later : List LogMessage) :
    logged verbose messages ++ logged verbose later = logged verbose (messages ++ later) := by
  rw [logged, logged, logged, List.flatMap_append]
  cases verbose <;> rfl

/-- **A session starts** if there are settings, they describe an engine and its index can be read
from its file. -/
theorem start_eq_ok_iff [Orthography] [SettingsSyntax] {inv : Invocation} {st : Storage} :
    start inv st = .ok s ↔ ∃ e index header bytes,
      settings inv st = .ok e.settings ∧ Engine.ofSettings e.settings = .ok e ∧
        e.load st inv.indexPath = .ok { e with index } ∧
        Archive.decode bytes = .ok (header, index) ∧ s = ofEngine inv { e with index } := by
  constructor
  · intro h
    obtain ⟨given, hgiven, hmakes⟩ := Passes.bind_eq_ok_iff.1 h
    obtain ⟨e, hmade, hloads⟩ := Passes.bind_eq_ok_iff.1 hmakes
    obtain ⟨e', hload, hends⟩ := Passes.bind_eq_ok_iff.1 hloads
    obtain ⟨⟨header, index⟩, hfound, rfl⟩ := Engine.load_eq_ok_iff.1 hload
    obtain ⟨bytes, -, hdecode⟩ := Storage.load_eq_ok_iff.1 hfound
    obtain ⟨rfl, -⟩ := Engine.fresh_of_ofSettings hmade
    exact ⟨e, index, header, bytes, hgiven, hmade, hload, hdecode, (Except.ok.inj hends).symm⟩
  · rintro ⟨e, index, header, bytes, hgiven, hmade, hload, -, rfl⟩
    rw [start, hgiven, Passes.ok_bind, hmade, Passes.ok_bind, hload]
    rfl

end Session

end Concordance
