import Concordance.Proofs.Progress

/-!
# What is derived is read

The induction here is on the derivation. A derivation says where a part ends, and a function has to
find the end by itself: a word goes as far as bytes of words do, and a loop stops where no clause
can begin (`endsClause`). In a derivation of a whole text every part ends where its function does.

Together with soundness this says that queries are read exactly by their grammar (`parse_iff_text`).
-/

namespace Concordance.Query

open Grammar

namespace Parser

variable {α β : Type}

/-! ### Where a clause begins -/

/-- Bytes with which a clause begins. -/
structure Begins (s : Bytes) : Prop where
  trimmed : Bytes.trimLeft s = s
  more : endsClause s = false
  starless : s.head? ≠ some 42

/-- A beginning has a first byte, which is neither a bar nor a closing parenthesis. -/
theorem Begins.exists_cons {s : Bytes} (h : Begins s) : ∃ b t, s = b :: t ∧ b ≠ 124 ∧ b ≠ 41 := by
  cases s with
  | nil => cases h.more
  | cons b t => exact ⟨b, t, rfl, by simpa [endsClause] using h.more⟩

theorem Begins.head?_any {s : Bytes} (h : Begins s) : s.head?.any Bytes.isSpace = false :=
  trimLeft_eq_self_iff.1 h.trimmed

theorem begins_cons {b : UInt8} (hspace : Bytes.isSpace b = false)
    (hb : b ≠ 124 ∧ b ≠ 41 ∧ b ≠ 42) (s : Bytes) : Begins (b :: s) where
  trimmed := trimLeft_cons hspace s
  more := by simp [endsClause, hb.1, hb.2.1]
  starless heq := hb.2.2 (Option.some.inj heq)

/-- **What a part of the grammar begins with**, part by part: a word begins with none of the bytes
that end a clause, and without a minus. -/
theorem begins_word {w : Bytes} (hw : Word w) (rest : Bytes) :
    Begins (w ++ rest) ∧ (w ++ rest).head? ≠ some 45 := by
  obtain ⟨b, w, rfl⟩ := List.exists_cons_of_ne_nil hw.nonempty
  obtain ⟨hspace, hmark, hstar⟩ := hw.plain b List.mem_cons_self
  have hb : b ≠ 124 ∧ b ≠ 41 :=
    ⟨fun heq ↦ hmark (heq ▸ by decide), fun heq ↦ hmark (heq ▸ by decide)⟩
  exact ⟨begins_cons hspace ⟨hb.1, hb.2, hstar⟩ _, hw.unsigned⟩

/-- A primary never begins with a minus, so the minus of a clause can be told from it. -/
theorem begins_primary {s rest : Bytes} {q : Query} (h : Primary s q rest) :
    Begins s ∧ s.head? ≠ some 45 := by
  cases h with
  | phrase => exact ⟨begins_cons (by decide) (by decide) _, by simp⟩
  | group => exact ⟨begins_cons (by decide) (by decide) _, by simp⟩
  | word hw => exact begins_word hw _
  | wildcard hw => exact begins_word hw _

/-- A clause may begin with one. -/
theorem begins_clause {s rest : Bytes} {q : Query} (h : Clause s q rest) : Begins s := by
  cases h with
  | positive h => exact (begins_primary h).1
  | negative => exact begins_cons (by decide) (by decide) _

theorem begins_clauses {s rest : Bytes} {qs : List Query} (h : Clauses s qs rest) : Begins s := by
  cases h with
  | one h => exact begins_clause h
  | more h => exact begins_clause h

theorem begins_conjunction {s rest : Bytes} {q : Query} (h : Conjunction s q rest) : Begins s := by
  cases h with
  | mk h => exact begins_clauses h

theorem begins_alternatives {s rest : Bytes} {qs : List Query} (h : Alternatives s qs rest) :
    Begins s := by
  cases h with
  | one h => exact begins_conjunction h
  | more h => exact begins_conjunction h

theorem begins_disjunction {s rest : Bytes} {q : Query} (h : Disjunction s q rest) :
    Begins s := by
  cases h with
  | mk h => exact begins_alternatives h

/-- White space changes nothing about whether a byte that is none comes first. -/
theorem head?_append_ne {b : UInt8} (hb : Bytes.isSpace b = false) {blank s : Bytes}
    (hblank : Blank blank) (hs : s.head? ≠ some b) : (blank ++ s).head? ≠ some b := by
  cases blank with
  | nil => exact hs
  | cons c blank =>
    intro heq
    have hc := hblank c List.mem_cons_self
    rw [Option.some.inj heq, hb] at hc
    cases hc

/-- Where no clause can begin there is no star. -/
theorem starless_of_endsClause {s : Bytes} (h : endsClause (Bytes.trimLeft s) = true) :
    s.head? ≠ some 42 := by
  obtain ⟨blank, hblank, hs⟩ := exists_blank s
  rw [hs]
  refine head?_append_ne (by decide) hblank fun heq ↦ ?_
  obtain ⟨t, ht⟩ := List.head?_eq_some_iff.1 heq
  rw [ht] at h
  cases h

/-! ### Words and phrases -/

/-- A run of bytes is read off exactly if the byte behind it does not belong to it. -/
theorem takeWhile_dropWhile_append {p : UInt8 → Bool} {s rest : Bytes} (hs : ∀ b ∈ s, p b = true)
    (hrest : ∀ b ∈ rest.head?, p b = false) :
    (s ++ rest).takeWhile p = s ∧ (s ++ rest).dropWhile p = rest := by
  rw [List.takeWhile_append_of_pos hs, List.dropWhile_append_of_pos hs]
  cases rest with
  | nil => exact ⟨List.append_nil s, rfl⟩
  | cons b rest =>
    have hb : ¬ p b = true := Bool.eq_false_iff.1 (hrest b rfl)
    rw [List.takeWhile_cons_of_neg hb, List.dropWhile_cons_of_neg hb]
    exact ⟨List.append_nil s, rfl⟩

/-- Where a word can end, no byte of a word follows. -/
theorem not_isWordByte_of_endsWord {rest : Bytes} (h : EndsWord rest) :
    ∀ b ∈ rest.head?, isWordByte b = false := by
  intro b hb
  refine Bool.eq_false_iff.2 fun hword ↦ ?_
  obtain ⟨hspace, hmark⟩ := isWordByte_iff.1 hword
  rcases h b hb with h | h
  · rw [h] at hspace
    cases hspace
  · exact hmark h

theorem isWordByte_of_word {w : Bytes} (hw : Word w) : ∀ b ∈ w, isWordByte b = true :=
  fun b hb ↦ isWordByte_iff.2 ⟨(hw.plain b hb).1, (hw.plain b hb).2.1⟩

theorem star_notMem_of_word {w : Bytes} (hw : Word w) : 42 ∉ w :=
  fun hmem ↦ (hw.plain 42 hmem).2.2 rfl

/-- A word is read as far as the derivation says. -/
theorem lexeme_word (n : Nat) {w rest : Bytes} (hw : Word w) (hrest : EndsWord rest) :
    lexeme n (w ++ rest) = .ok (.word (offset n (w ++ rest)) w, rest) := by
  obtain ⟨htake, hdrop⟩ :=
    takeWhile_dropWhile_append (isWordByte_of_word hw) (not_isWordByte_of_endsWord hrest)
  have hstar : w.idxOf? 42 = none := List.idxOf?_eq_none_iff.2 (star_notMem_of_word hw)
  rw [lexeme]
  simp only [htake, hdrop, hstar, List.isEmpty_eq_false_iff.2 hw.nonempty]
  rfl

/-- So is a wildcard. -/
theorem lexeme_wildcard (n : Nat) {w rest : Bytes} (hw : Word w) (hrest : EndsWord rest) :
    lexeme n (w ++ 42 :: rest) = .ok (.wildcard (offset n (w ++ 42 :: rest)) w, rest) := by
  -- the star is read with the word and found in it afterwards
  have hbytes : ∀ b ∈ w ++ [42], isWordByte b = true :=
    List.forall_mem_append.2 ⟨isWordByte_of_word hw, List.forall_mem_singleton.2 (by decide)⟩
  obtain ⟨htake, hdrop⟩ :=
    takeWhile_dropWhile_append hbytes (not_isWordByte_of_endsWord hrest)
  have hstar : (w ++ [42]).idxOf? 42 = some w.length :=
    idxOf?_eq_some_iff_append.2 ⟨w, [], rfl, star_notMem_of_word hw, rfl⟩
  have hempty : (w ++ [42]).isEmpty = false := by simp
  have hpos : w.length ≠ 0 := fun hzero ↦ hw.nonempty (List.length_eq_zero_iff.1 hzero)
  rw [List.append_assoc, List.singleton_append] at htake hdrop
  rw [lexeme]
  simp only [htake, hdrop, hstar, hempty]
  simp [hpos]

/-- A phrase is read up to its closing quote, if no star comes after it. -/
theorem quotation_phrase (n start : Nat) {text rest : Bytes} (hquote : 34 ∉ text)
    (hwords : Bytes.words text ≠ []) (hrest : rest.head? ≠ some 42) :
    quotation n start (text ++ 34 :: rest) =
      .ok (.phrase start text (Bytes.words text), rest) := by
  have hbytes : ∀ b ∈ text, (b != 34) = true :=
    fun b hb ↦ bne_iff_ne.2 fun heq ↦ hquote (heq ▸ hb)
  have hclose : ∀ b ∈ (34 :: rest : Bytes).head?, (b != 34) = false := by simp
  obtain ⟨htake, hdrop⟩ := takeWhile_dropWhile_append hbytes hclose
  rw [quotation]
  simp only [htake, hdrop, List.isEmpty_eq_false_iff.2 hwords]
  simp [hrest]

/-- Without a quote or a parenthesis in front, a primary is a lexeme. -/
theorem primary_eq_lexeme (n : Nat) {s : Bytes} (hquote : s.head? ≠ some 34)
    (hopen : s.head? ≠ some 40) : primary n s = lexeme n s := by
  rw [primary.eq_def]
  split
  · exact absurd rfl hquote
  · exact absurd rfl hopen
  · rfl

/-- Without a minus in front, a clause is a primary. -/
theorem clause_eq_primary (n : Nat) {s : Bytes} (hminus : s.head? ≠ some 45) :
    clause n s = primary n s := by
  rw [clause.eq_def]
  split
  · exact absurd rfl hminus
  · rfl

/-- What a word begins with has no meaning of its own. -/
theorem head?_word_append {w rest : Bytes} (hw : Word w) {b : UInt8} (hb : b ∈ marks) :
    (w ++ rest).head? ≠ some b := by
  rw [List.head?_append_of_ne_nil _ hw.nonempty]
  exact fun heq ↦ (hw.plain b (List.mem_of_head? heq)).2.1 hb

/-! ### Loops -/

/-- Where no clause can begin there are no more clauses. -/
theorem clauses_of_endsClause (n : Nat) {s : Bytes} (h : endsClause (Bytes.trimLeft s) = true) :
    clauses n s = .ok ([], Bytes.trimLeft s) := by
  rw [clauses]
  exact if_pos h

/-- White space before clauses does not matter. -/
theorem clauses_append (n : Nat) {blank : Bytes} (h : Blank blank) (s : Bytes) :
    clauses n (blank ++ s) = clauses n s := by
  rw [clauses, clauses.eq_def n s, trimLeft_append h]

/-- One turn of the loop of clauses. -/
theorem clauses_cons {n : Nat} {s rest rest' : Bytes} {q : Query} {qs : List Query} (hs : Begins s)
    (hq : clause n s = .ok (q, rest)) (hqs : clauses n rest = .ok (qs, rest')) :
    clauses n s = .ok (q :: qs, rest') := by
  rw [clauses_eq, hs.trimmed, hs.more, if_neg Bool.false_ne_true, hq, Passes.ok_bind]
  dsimp only
  rw [hqs]
  rfl

theorem trimLeft_bar {bar : Bytes} (hbar : IsBar bar) (s : Bytes) :
    Bytes.trimLeft (bar ++ s) = bar ++ s := by
  rcases hbar with rfl | rfl
  · exact trimLeft_cons (by decide) _
  · exact trimLeft_cons (by decide) _

/-- A bar ends the clauses before it. -/
theorem endsClause_bar {bar : Bytes} (hbar : IsBar bar) (s : Bytes) :
    endsClause (bar ++ s) = true := by
  rcases hbar with rfl | rfl
  · rfl
  · rfl

/-- What comes after a bar is found if it is not another bar. -/
theorem afterBar?_append {bar s : Bytes} (hbar : IsBar bar)
    (hs : s.head? ≠ some 124) : afterBar? (bar ++ s) = some s := by
  rcases hbar with rfl | rfl
  · cases s with
    | nil => rfl
    | cons b s =>
      have hb : b ≠ 124 := fun heq ↦ hs (heq ▸ rfl)
      simp [afterBar?, hb]
  · rfl

/-- One conjunction that no bar follows is the only alternative. -/
theorem alternatives_one {n : Nat} {s rest : Bytes} {q : Query}
    (hq : conjunction n s = .ok (q, rest)) (hbar : afterBar? (Bytes.trimLeft rest) = none) :
    alternatives n s = .ok ([q], Bytes.trimLeft rest) := by
  rw [alternatives, hq, Passes.ok_bind]
  simp only [hbar]
  rfl

/-- One turn of the loop of alternatives. -/
theorem alternatives_cons {n : Nat} {s rest t rest' : Bytes} {q : Query} {qs : List Query}
    (hq : conjunction n s = .ok (q, rest)) (hbar : afterBar? (Bytes.trimLeft rest) = some t)
    (ht : Begins (Bytes.trimLeft t))
    (hqs : alternatives n (Bytes.trimLeft t) = .ok (qs, rest')) :
    alternatives n s = .ok (q :: qs, rest') := by
  rw [alternatives_eq, hq, Passes.ok_bind]
  simp only [hbar, ht.more, hqs, Passes.ok_bind]
  rfl

/-! ### Parts of a text -/

mutual

/-- **What is derived is read.** No star comes after it, because no clause begins with one. -/
theorem exists_primary (n : Nat) {s rest : Bytes} {q : Query} : Primary s q rest →
    rest.head? ≠ some 42 → ∃ q', primary n s = .ok (q', rest) ∧ q'.unplaced = q
  | .phrase hquote hfull hwords, hrest => by
    have hwords := runs_iff.1 hwords
    have hne := words_ne_nil_iff.2 hfull
    rw [primary, quotation_phrase n _ hquote hne hrest, hwords]
    exact ⟨_, rfl, rfl⟩
  | @Primary.group before s after rest q hbefore hafter h, _ => by
    have hbegins := begins_disjunction h
    -- the loops inside stop at the closing parenthesis
    have hclose : Bytes.trimLeft (after ++ 41 :: rest) = 41 :: rest := by
      rw [trimLeft_append hafter, trimLeft_cons (by decide)]
    obtain ⟨q', hq, hunplaced⟩ := exists_disjunction n h (by rw [hclose]; rfl) (by rw [hclose]; rfl)
    have hinner : Bytes.trimLeft (before ++ s) = s := by
      rw [trimLeft_append hbefore, hbegins.trimmed]
    obtain ⟨b, t, rfl, -, hb⟩ := hbegins.exists_cons
    have hhead : ((b :: t).head? == some 41) = false := by simp [hb]
    refine ⟨q', ?_, hunplaced⟩
    rw [primary]
    simp only [hinner, hhead, List.isEmpty_cons, hq, Passes.ok_bind, hclose]
    rfl
  | @Primary.word w rest hw hrest, _ => by
    rw [primary_eq_lexeme n (head?_word_append hw (by decide)) (head?_word_append hw (by decide)),
      lexeme_word n hw hrest]
    exact ⟨_, rfl, rfl⟩
  | @Primary.wildcard w rest hw hrest, _ => by
    rw [primary_eq_lexeme n (head?_word_append hw (by decide)) (head?_word_append hw (by decide)),
      lexeme_wildcard n hw hrest]
    exact ⟨_, rfl, rfl⟩

/-- **A clause of the grammar is read** as the tree that it stands for, up to positions. -/
theorem exists_clause (n : Nat) {s rest : Bytes} {q : Query} : Clause s q rest →
    rest.head? ≠ some 42 → ∃ q', clause n s = .ok (q', rest) ∧ q'.unplaced = q
  | .positive h, hrest => by
    rw [clause_eq_primary n (begins_primary h).2]
    exact exists_primary n h hrest
  | @Clause.negative s rest q h, hrest => by
    obtain ⟨q', hq, hunplaced⟩ := exists_primary n h hrest
    obtain ⟨hbegins, hminus⟩ := begins_primary h
    refine ⟨.neg (offset n (45 :: s)) q', ?_, by rw [unplaced, hunplaced]⟩
    have hends : (endsClause s || s.head?.any Bytes.isSpace) = false := by
      rw [hbegins.more, hbegins.head?_any]
      rfl
    rw [clause, hends, if_neg Bool.false_ne_true, if_neg fun heq ↦ hminus (eq_of_beq heq), hq]
    rfl

/-- Clauses are read to the end of their derivation if no clause can begin there. -/
theorem exists_clauses (n : Nat) {s rest : Bytes} {qs : List Query} : Clauses s qs rest →
    endsClause (Bytes.trimLeft rest) = true →
      ∃ qs', clauses n s = .ok (qs', Bytes.trimLeft rest) ∧ qs'.map unplaced = qs
  | .one h, hends => by
    obtain ⟨q', hq, hunplaced⟩ := exists_clause n h (starless_of_endsClause hends)
    refine ⟨[q'], ?_, by rw [List.map_singleton, hunplaced]⟩
    exact clauses_cons (begins_clause h) hq (clauses_of_endsClause n hends)
  | .more h hblank hmore, hends => by
    have hstar := head?_append_ne (by decide) hblank (begins_clauses hmore).starless
    obtain ⟨q', hq, hunplaced⟩ := exists_clause n h hstar
    obtain ⟨qs', hqs, hunplaced'⟩ := exists_clauses n hmore hends
    refine ⟨q' :: qs', ?_, by rw [List.map_cons, hunplaced, hunplaced']⟩
    exact clauses_cons (begins_clause h) hq ((clauses_append n hblank _).trans hqs)

/-- **So is a conjunction**, with the white space behind it. -/
theorem exists_conjunction (n : Nat) {s rest : Bytes} {q : Query} : Conjunction s q rest →
    endsClause (Bytes.trimLeft rest) = true →
      ∃ q', conjunction n s = .ok (q', Bytes.trimLeft rest) ∧ q'.unplaced = q
  | .mk h hgathers, hends => by
    obtain ⟨qs', hqs, hunplaced⟩ := exists_clauses n h hends
    have hbegins := begins_clauses h
    rw [← hunplaced, gathers_iff (unplaced_conj (offset n s))] at hgathers
    refine ⟨_, ?_, hgathers.2⟩
    rw [conjunction]
    simp only [hbegins.trimmed, hbegins.more, hqs]
    rfl

/-- Alternatives are read to the end of their derivation if there is no bar either. -/
theorem exists_alternatives (n : Nat) {s rest : Bytes} {qs : List Query} :
    Alternatives s qs rest → endsClause (Bytes.trimLeft rest) = true →
      afterBar? (Bytes.trimLeft rest) = none →
        ∃ qs', alternatives n s = .ok (qs', Bytes.trimLeft rest) ∧ qs'.map unplaced = qs
  | .one h, hends, hbar => by
    obtain ⟨q', hq, hunplaced⟩ := exists_conjunction n h hends
    refine ⟨[q'], ?_, by rw [List.map_singleton, hunplaced]⟩
    rw [← trimLeft_trimLeft] at hbar ⊢
    exact alternatives_one hq hbar
  | @Alternatives.more s before bar after t rest q qs h hbefore hbar hafter hmore,
    hends, hnone => by
    have hbegins := begins_alternatives hmore
    obtain ⟨b, t', ht, hb, -⟩ := hbegins.exists_cons
    -- what comes after the bar is no second bar
    have hhead : (after ++ t).head? ≠ some 124 := by
      refine head?_append_ne (by decide) hafter ?_
      rw [ht]
      exact fun heq ↦ hb (Option.some.inj heq)
    have htrim : Bytes.trimLeft (before ++ (bar ++ (after ++ t))) = bar ++ (after ++ t) := by
      rw [trimLeft_append hbefore, trimLeft_bar hbar]
    have hnext : Bytes.trimLeft (after ++ t) = t := by
      rw [trimLeft_append hafter, hbegins.trimmed]
    obtain ⟨q', hq, hunplaced⟩ := exists_conjunction n h (by rw [htrim, endsClause_bar hbar])
    obtain ⟨qs', hqs, hunplaced'⟩ := exists_alternatives n hmore hends hnone
    refine ⟨q' :: qs', ?_, by rw [List.map_cons, hunplaced, hunplaced']⟩
    refine alternatives_cons (t := after ++ t) hq ?_ ?_ ?_
    · rw [trimLeft_trimLeft, htrim, afterBar?_append hbar hhead]
    · rwa [hnext]
    · rwa [hnext]

/-- **So is a disjunction.** -/
theorem exists_disjunction (n : Nat) {s rest : Bytes} {q : Query} : Disjunction s q rest →
    endsClause (Bytes.trimLeft rest) = true → afterBar? (Bytes.trimLeft rest) = none →
      ∃ q', disjunction n s = .ok (q', Bytes.trimLeft rest) ∧ q'.unplaced = q
  | .mk h hgathers, hends, hbar => by
    obtain ⟨qs', hqs, hunplaced⟩ := exists_alternatives n h hends hbar
    rw [← hunplaced, gathers_iff (unplaced_disj (offset n s))] at hgathers
    refine ⟨_, ?_, hgathers.2⟩
    rw [disjunction, hqs]
    rfl

end

end Parser

open Concordance.Query.Parser

/-- A text of the grammar is read if its tree keeps the negation rule. -/
theorem exists_parse {text : Bytes} {t : Query} (h : Text text t) (hrule : t.KeepsNegationRule) :
    ∃ t', parse text = .ok t' ∧ t'.unplaced = t := by
  obtain ⟨before, s, after, hbefore, htext, hs, hafter⟩ := h
  have hbegins := begins_disjunction hs
  have htrim : Bytes.trimLeft text = s := by
    rw [htext, trimLeft_append hbefore, hbegins.trimmed]
  have hend : Bytes.trimLeft after = [] := by
    rw [← List.append_nil after, trimLeft_append hafter]
    rfl
  obtain ⟨q, hq, hunplaced⟩ :=
    exists_disjunction text.length hs (by rw [hend]; rfl) (by rw [hend]; rfl)
  have hcheck : q.checkNegation false = .ok () := by
    rw [checkNegation_false_iff (hasOperands_unplaced.1 (hunplaced ▸ hs.filled)),
      ← keepsNegationRule_unplaced, hunplaced]
    exact hrule
  refine ⟨q, ?_, hunplaced⟩
  obtain ⟨b, u, rfl, -, -⟩ := hbegins.exists_cons
  rw [parse]
  simp only [htrim, List.isEmpty_cons, hq, Passes.ok_bind, hend, hcheck]
  rfl

/-- **A query is read exactly if the grammar derives it and it keeps the negation rule**, and
then it is the tree of the grammar, positions aside. Every other text is refused as a fault of
the query. -/
theorem parse_iff_text (text : Bytes) :
    (∀ t : Query, (∃ t', parse text = .ok t' ∧ t'.unplaced = t.unplaced) ↔
      Text text t.unplaced ∧ t.KeepsNegationRule) ∧
    ((¬ ∃ t : Query, Text text t.unplaced ∧ t.KeepsNegationRule) →
      ∃ fault position, parse text = .error (.query fault position)) := by
  have hyields := yields_parse text
  constructor
  · intro t
    constructor
    · intro ⟨t', hparse, hunplaced⟩
      rw [hparse] at hyields
      obtain ⟨htext, hrule⟩ := hyields
      rw [← hunplaced, ← keepsNegationRule_unplaced, ← hunplaced, keepsNegationRule_unplaced]
      exact ⟨htext, hrule⟩
    · intro ⟨htext, hrule⟩
      exact exists_parse htext (keepsNegationRule_unplaced.2 hrule)
  · intro hnone
    cases hparse : parse text with
    | error e =>
      rw [hparse] at hyields
      obtain ⟨fault, position, he⟩ := hyields
      exact ⟨fault, position, by rw [he]⟩
    | ok t' =>
      rw [hparse] at hyields
      exact absurd ⟨t', hyields⟩ hnone

end Concordance.Query
