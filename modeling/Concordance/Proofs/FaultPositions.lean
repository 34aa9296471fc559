import Concordance.Proofs.Calls
import Concordance.Proofs.Occurrences

/-!
# Where a query is refused

A text that is no query is refused at a position, and what stands there is what the fault is about:
a quote, a parenthesis, a bar, a minus or a star (`QueryFault.PointsAt`). Only where something is
missing at the end of the text there is nothing to point at, and then the text is white space or
ends in a bar.

A call that fails has a fault of its own, or one of the calls that it makes fails
(`Parser.Call.Fails.pointsInto_or`). There is no endless chain of calls, so in the end some call has
a fault of its own, and what that call relies on tells where the fault points
(`Parser.Call.Fails.pointsInto`). The faults of the negation rule are at nodes, and these are placed
in the text (`Parser.Laid`).
-/

namespace Concordance

open Query.Grammar

/-- What a fault points at in a text of which `s` is left. -/
def QueryFault.PointsAt (text s : Bytes) : QueryFault → Prop
  | emptyQuery => s = [] ∧ Blank text
  | missingAlternative => Query.Parser.endsClause s = true ∧
      ∃ before blank, Blank blank ∧ text = before ++ 124 :: (blank ++ s)
  | unexpected b => s.head? = some b ∧ (b = 124 ∨ b = 41)
  | danglingMinus | doubleNegation | loneNegation => s.head? = some 45
  | onlyNegations => s.head? = some 40 ∨ s.head? = some 45
  | starInside | emptyWildcard | starAfterPhrase => s.head? = some 42
  | openQuote | emptyPhrase => s.head? = some 34
  | emptyGroup | openGroup => s.head? = some 40
  | strayClose => s.head? = some 41
  -- for these no text is refused
  | missingClause | strayByte | compoundWildcard => False

/-- An error is a fault of a text that points at what it is about. -/
def Error.PointsInto (text : Bytes) (e : Error) : Prop :=
  ∃ fault s, s <:+ text ∧ e = .query fault (Query.Parser.offset text.length s) ∧
    fault.PointsAt text s

namespace Query

namespace Parser

variable {text s rest : Bytes} {e : Error} {q : Query} {qs : List Query}

/-! ### Words and phrases -/

/-- A lexeme fails at a byte of the text. -/
theorem pointsInto_lexeme (hs : s <:+ text) (hready : s.takeWhile isWordByte ≠ [])
    (h : lexeme text.length s = .error e) : e.PointsInto text := by
  have hsplit : s.takeWhile isWordByte ++ s.dropWhile isWordByte = s :=
    List.takeWhile_append_dropWhile
  rw [lexeme] at h
  generalize s.takeWhile isWordByte = word at *
  generalize s.dropWhile isWordByte = back at *
  split at h
  · rename_i hnil
    exact absurd (List.isEmpty_iff.1 hnil) hready
  · split at h
    · cases h
    · rename_i i hi
      obtain ⟨w, more, hword, -, rfl⟩ := idxOf?_eq_some_iff_append.1 hi
      have hstar : w ++ 42 :: (more ++ back) = s := by
        rw [← hsplit, hword, List.append_assoc, List.cons_append]
      subst hstar
      split at h
      · refine ⟨.starInside, 42 :: (more ++ back), (List.suffix_append w _).trans hs, ?_, rfl⟩
        rw [← offset_add_length w hs]
        exact (Except.error.inj h).symm
      · split at h
        · rename_i hnil
          obtain rfl := List.length_eq_zero_iff.1 hnil
          exact ⟨_, _, hs, (Except.error.inj h).symm, rfl⟩
        · cases h

/-- So does a phrase. -/
theorem pointsInto_quotation (hs : 34 :: s <:+ text)
    (h : quotation text.length (offset text.length (34 :: s)) s = .error e) :
    e.PointsInto text := by
  rw [quotation] at h
  split at h
  · exact ⟨_, _, hs, (Except.error.inj h).symm, rfl⟩
  · rename_i b rest hrest
    split at h
    · exact ⟨_, _, hs, (Except.error.inj h).symm, rfl⟩
    · split at h
      · rename_i hstar
        have hback : rest <:+ s := (List.suffix_cons b rest).trans (hrest ▸ List.dropWhile_suffix _)
        exact ⟨_, rest, (hback.trans (List.suffix_cons 34 s)).trans hs,
          (Except.error.inj h).symm, eq_of_beq hstar⟩
      · cases h

/-! ### Calls that fail -/

/-- A call fails with an error. -/
def Call.Fails (n : Nat) (e : Error) : Call → Prop
  | disjunction s => Parser.disjunction n s = .error e
  | alternatives s => Parser.alternatives n s = .error e
  | conjunction s => Parser.conjunction n s = .error e
  | clauses s => Parser.clauses n s = .error e
  | clause s => Parser.clause n s = .error e
  | primary s => Parser.primary n s = .error e
  | quotation s => Parser.quotation n (offset n (34 :: s)) s = .error e
  | lexeme s => Parser.lexeme n s = .error e

/-- An error of a call may come from a call that it makes. -/
def Call.Forwards (n : Nat) (e : Error) (c : Call) : Prop :=
  ∃ c', Calls n c c' ∧ c'.Fails n e

/-- **A part fails at a byte of the text or forwards the fault of a call that it makes.** -/
theorem alternatives_error (hs : s <:+ text) (h : alternatives text.length s = .error e) :
    e.PointsInto text ∨ (Call.alternatives s).Forwards text.length e := by
  rw [alternatives_eq] at h
  obtain h | ⟨⟨q, rest⟩, hconjunction, h⟩ := Passes.bind_eq_error_iff.1 h
  · exact .inr ⟨_, .conjunction s, h⟩
  · dsimp only at h
    split at h
    · cases h
    · rename_i t hbar
      split at h
      · rename_i hends
        -- behind the bar there is white space, and then nothing that a clause can begin with
        obtain ⟨bar, hisBar, hrest⟩ := exists_bar hbar
        obtain ⟨blank, hblank, ht⟩ := exists_blank t
        have htext : bar ++ (blank ++ Bytes.trimLeft t) <:+ text := by
          rw [← ht, ← hrest]
          exact (trimLeft_suffix rest).trans
            ((laid_conjunction hconjunction).covers.suffix.trans hs)
        have hlast : ∃ first, bar = first ++ [124] := by
          rcases hisBar with rfl | rfl
          · exact ⟨[], rfl⟩
          · exact ⟨[124], rfl⟩
        obtain ⟨first, rfl⟩ := hlast
        obtain ⟨before, hbefore⟩ := htext
        refine .inl ⟨_, Bytes.trimLeft t, ?_, (Except.error.inj h).symm, hends, before ++ first,
          blank, hblank, ?_⟩
        · rw [← hbefore, ← List.append_assoc, ← List.append_assoc]
          exact List.suffix_append _ _
        · rw [← hbefore]
          simp
      · rename_i hmore
        obtain h | ⟨⟨qs, rest'⟩, -, h⟩ := Passes.bind_eq_error_iff.1 h
        · exact .inr ⟨_, .next hconjunction hbar (Bool.eq_false_iff.2 hmore), h⟩
        · cases h

theorem conjunction_error (hs : s <:+ text) (hready : Bytes.trimLeft s = s ∧ s ≠ [])
    (h : conjunction text.length s = .error e) :
    e.PointsInto text ∨ (Call.conjunction s).Forwards text.length e := by
  rw [conjunction] at h
  dsimp only at h
  split at h
  · rename_i hends
    rw [hready.1] at h hends
    split at h
    · exact absurd rfl hready.2
    · rename_i b t
      have hb : b = 124 ∨ b = 41 := by simpa [endsClause] using hends
      exact .inl ⟨_, _, hs, (Except.error.inj h).symm, rfl, hb⟩
  · rename_i hmore
    obtain h | ⟨⟨qs, rest⟩, -, h⟩ := Passes.bind_eq_error_iff.1 h
    · exact .inr ⟨_, .clauses (Bool.eq_false_iff.2 hmore), h⟩
    · cases h

theorem clauses_error {n : Nat} (h : clauses n s = .error e) : (Call.clauses s).Forwards n e := by
  rw [clauses_eq] at h
  split at h
  · cases h
  · rename_i hmore
    obtain h | ⟨⟨q, rest⟩, hclause, h⟩ := Passes.bind_eq_error_iff.1 h
    · exact ⟨_, .clause (Bool.eq_false_iff.2 hmore), h⟩
    · obtain h | ⟨⟨qs, rest'⟩, -, h⟩ := Passes.bind_eq_error_iff.1 h
      · exact ⟨_, .more (Bool.eq_false_iff.2 hmore) hclause, h⟩
      · cases h

theorem clause_error (hs : s <:+ text) (h : clause text.length s = .error e) :
    e.PointsInto text ∨ (Call.clause s).Forwards text.length e := by
  rw [clause.eq_def] at h
  split at h
  · rename_i t
    split at h
    · exact .inl ⟨_, _, hs, (Except.error.inj h).symm, rfl⟩
    · rename_i hfollowed
      obtain ⟨hmore, hspace⟩ : endsClause t = false ∧ t.head?.any Bytes.isSpace = false := by
        simpa using hfollowed
      split at h
      · rename_i hsign
        exact .inl ⟨_, t, (List.suffix_cons 45 t).trans hs, (Except.error.inj h).symm,
          eq_of_beq hsign⟩
      · rename_i hsign
        obtain h | ⟨⟨q, rest⟩, -, h⟩ := Passes.bind_eq_error_iff.1 h
        · exact .inr ⟨_, .operand hmore hspace (by simpa using hsign), h⟩
        · cases h
  · rename_i hplain
    have hsign : s.head? ≠ some 45 := by
      intro hhead
      obtain ⟨t, rfl⟩ := List.head?_eq_some_iff.1 hhead
      exact hplain t rfl
    exact .inr ⟨_, .primary hsign, h⟩

theorem primary_error (hs : s <:+ text) (h : primary text.length s = .error e) :
    e.PointsInto text ∨ (Call.primary s).Forwards text.length e := by
  rw [primary.eq_def] at h
  split at h
  · exact .inr ⟨_, .quotation _, h⟩
  · rename_i t
    dsimp only at h
    split at h
    · exact .inl ⟨_, _, hs, (Except.error.inj h).symm, rfl⟩
    · rename_i hclose
      split at h
      · exact .inl ⟨_, _, hs, (Except.error.inj h).symm, rfl⟩
      · rename_i hne
        obtain h | ⟨⟨q, rest⟩, -, h⟩ := Passes.bind_eq_error_iff.1 h
        · exact .inr ⟨_, .group (by simpa using hclose) (by simpa using hne), h⟩
        · dsimp only at h
          split at h
          · cases h
          · exact .inl ⟨_, _, hs, (Except.error.inj h).symm, rfl⟩
  · rename_i hquote hopen
    have hhead : ∀ b, (∀ t, s ≠ b :: t) → s.head? ≠ some b := by
      intro b hb hhead
      obtain ⟨t, ht⟩ := List.head?_eq_some_iff.1 hhead
      exact hb t ht
    exact .inr ⟨_, .lexeme (hhead 34 hquote) (hhead 40 hopen), h⟩

/-- **A call that fails** has a fault of its own, or a call that it makes fails. -/
theorem Call.Fails.pointsInto_or {c : Call} (h : c.Fails text.length e) (hs : c.left <:+ text)
    (hready : c.IsReady) : e.PointsInto text ∨ c.Forwards text.length e := by
  cases c with
  | disjunction s =>
    rw [Fails, Parser.disjunction] at h
    obtain h | ⟨⟨qs, rest⟩, -, h⟩ := Passes.bind_eq_error_iff.1 h
    · exact .inr ⟨_, .alternatives s, h⟩
    · cases h
  | alternatives s => exact alternatives_error hs h
  | conjunction s => exact conjunction_error hs hready h
  | clauses s => exact .inr (clauses_error h)
  | clause s => exact clause_error hs h
  | primary s => exact primary_error hs h
  | quotation s => exact .inl (pointsInto_quotation hs h)
  | lexeme s => exact .inl (pointsInto_lexeme hs hready h)

/-- **Calls fail with faults that point at what they are about.** -/
theorem Call.Fails.pointsInto {c : Call} (h : c.Fails text.length e) (hs : c.left <:+ text)
    (hready : c.IsReady) : e.PointsInto text := by
  induction c using (wellFounded_calls text.length).induction with
  | h c ih =>
    obtain hpoints | ⟨c', hcalls, hfails⟩ := h.pointsInto_or hs hready
    · exact hpoints
    · exact ih c' hcalls hfails (hcalls.left_suffix.trans hs) (hcalls.isReady hready)

/-! ### What is left -/

/-- Clauses are read to the end of a text, or to a bar or a closing parenthesis. -/
theorem endsClause_of_clauses {n : Nat} {s rest : Bytes} {qs : List Query}
    (h : clauses n s = .ok (qs, rest)) : Bytes.trimLeft rest = rest ∧ endsClause rest = true := by
  rw [clauses_eq] at h
  split at h
  · rename_i hends
    obtain ⟨-, rfl⟩ := Prod.mk.inj (Except.ok.inj h)
    exact ⟨trimLeft_trimLeft s, hends⟩
  · obtain ⟨⟨q, back⟩, hclause, h⟩ := Passes.bind_eq_ok_iff.1 h
    obtain ⟨⟨qs', rest'⟩, hclauses, h⟩ := Passes.bind_eq_ok_iff.1 h
    obtain ⟨-, rfl⟩ := Prod.mk.inj (Except.ok.inj h)
    have hlt := length_lt_of_clause hclause
    have hle := Bytes.length_trimLeft_le s
    exact endsClause_of_clauses hclauses
termination_by s.length

theorem endsClause_of_conjunction {n : Nat} (h : conjunction n s = .ok (q, rest)) :
    Bytes.trimLeft rest = rest ∧ endsClause rest = true := by
  rw [conjunction] at h
  dsimp only at h
  split at h
  · split at h <;> cases h
  · obtain ⟨⟨qs, rest'⟩, hclauses, h⟩ := Passes.bind_eq_ok_iff.1 h
    obtain ⟨-, rfl⟩ := Prod.mk.inj (Except.ok.inj h)
    exact endsClause_of_clauses hclauses

/-- Alternatives are read to the end of a text, or to a closing parenthesis. -/
theorem head?_of_alternatives {n : Nat} {s rest : Bytes} {qs : List Query}
    (h : alternatives n s = .ok (qs, rest)) : ∀ b ∈ rest.head?, b = 41 := by
  rw [alternatives_eq] at h
  obtain ⟨⟨q, back⟩, hconjunction, h⟩ := Passes.bind_eq_ok_iff.1 h
  dsimp only at h
  split at h
  · rename_i hbar
    obtain ⟨-, rfl⟩ := Prod.mk.inj (Except.ok.inj h)
    obtain ⟨htrim, hends⟩ := endsClause_of_conjunction hconjunction
    rw [htrim] at hbar ⊢
    intro b hb
    obtain ⟨t, rfl⟩ := List.head?_eq_some_iff.1 hb
    have hb : b = 124 ∨ b = 41 := by simpa [endsClause] using hends
    refine hb.resolve_left ?_
    rintro rfl
    rw [afterBar?.eq_def] at hbar
    split at hbar <;> simp_all
  · rename_i t hbar
    split at h
    · cases h
    · obtain ⟨⟨qs', rest'⟩, halternatives, h⟩ := Passes.bind_eq_ok_iff.1 h
      obtain ⟨-, rfl⟩ := Prod.mk.inj (Except.ok.inj h)
      have hlt := length_lt_of_next hconjunction hbar
      exact head?_of_alternatives halternatives
termination_by s.length

/-- What is left behind alternatives begins with a closing parenthesis, if white space is left
out. -/
theorem head?_of_disjunction {n : Nat} (h : disjunction n s = .ok (q, rest)) :
    ∀ b ∈ (Bytes.trimLeft rest).head?, b = 41 := by
  rw [disjunction] at h
  obtain ⟨⟨qs, rest'⟩, halternatives, h⟩ := Passes.bind_eq_ok_iff.1 h
  obtain ⟨-, rfl⟩ := Prod.mk.inj (Except.ok.inj h)
  have hclose := head?_of_alternatives halternatives
  have htrim : Bytes.trimLeft rest' = rest' := by
    rw [trimLeft_eq_self_iff, Option.any_eq_false]
    intro b hb
    rw [hclose b hb]
    rfl
  rwa [htrim]

/-! ### The negation rule -/

/-- Something leads to the first leaf of some pieces only if there are some. -/
theorem ne_nil_of_leads {n : Nat} {ps : List Piece} (h : Leads n s ps) : ps ≠ [] := by
  induction h with
  | leaf | sign => exact List.cons_ne_nil _ _
  | skip _ _ ih => exact ih

/-- What begins with a sign begins with a minus or with parentheses before it. -/
theorem head?_of_leads_sign {n p : Nat} {ps : List Piece} (h : Leads n s (.sign p :: ps))
    (htrim : Bytes.trimLeft s = s) : s.head? = some 40 ∨ s.head? = some 45 := by
  cases h with
  | sign => exact .inr rfl
  | @skip b s _ hb _ =>
    have hspace : Bytes.isSpace b = false := trimLeft_eq_self_iff.1 htrim
    obtain hb | rfl := hb
    · rw [hb] at hspace
      cases hspace
    · exact .inl rfl

/-- What breaks the negation rule in a tree that is laid out in a text points into the text. -/
theorem Laid.pointsInto {t : Query} (h : Laid text.length text t [])
    (he : t.checkNegation false = .error e) : e.PointsInto text := by
  have hpass : t.checkNegation false = (t.occurrences none).forM Occurrence.check :=
    t.checkNegation_eq_forM none
  rw [hpass, Passes.forM_eq_error_iff] at he
  obtain ⟨before, x, after, hlist, -, hcheck⟩ := he
  obtain ⟨fault, hfault, rfl⟩ := Occurrence.check_eq_error_iff.1 hcheck
  have hmem : x ∈ t.occurrences none := by
    rw [hlist]
    exact List.mem_append_right _ List.mem_cons_self
  obtain ⟨s, hs, hbegins⟩ := h.nodes x.node (isNode_of_mem_occurrences hmem)
  refine ⟨fault, s, hs, by rw [hbegins.position], ?_⟩
  obtain ⟨node, above⟩ := x
  cases node with
  | neg position operand =>
    rw [Occurrence.fault?_neg] at hfault
    split at hfault
    · cases hfault
    · obtain rfl := Option.some.inj hfault
      exact hbegins.sign rfl
  | conj position qs =>
    rw [Occurrence.fault?_conj] at hfault
    split at hfault
    · rename_i hall
      obtain rfl := Option.some.inj hfault
      -- the first operand is negated
      have hleads : Leads text.length s (piecesAll qs) := hbegins.leads
      cases qs with
      | nil => exact absurd rfl (ne_nil_of_leads hleads)
      | cons q qs =>
        obtain ⟨position, operand, rfl⟩ : ∃ position operand, q = neg position operand := by
          cases q with
          | neg position operand => exact ⟨position, operand, rfl⟩
          | _ => simp [isNegation] at hall
        exact head?_of_leads_sign hleads (hbegins.trimmed rfl)
    · cases hfault
  | _ => cases hfault

end Parser

/-! ### Whole texts -/

variable {text : Bytes}

/-- **A text that is not read is refused at what is wrong with it.** -/
theorem pointsInto_of_parse {e : Error} (h : parse text = .error e) : e.PointsInto text := by
  have hsuffix := Parser.trimLeft_suffix text
  rw [parse] at h
  dsimp only at h
  split at h
  · rename_i hnil
    obtain ⟨blank, hblank, htext⟩ := exists_blank text
    have hnil := List.isEmpty_iff.1 hnil
    rw [hnil, List.append_nil] at htext
    exact ⟨_, _, hsuffix, (Except.error.inj h).symm, hnil, htext ▸ hblank⟩
  · rename_i hne
    have hready : Bytes.trimLeft (Bytes.trimLeft text) = Bytes.trimLeft text ∧
        Bytes.trimLeft text ≠ [] :=
          ⟨trimLeft_trimLeft text, fun hnil ↦ hne (List.isEmpty_iff.2 hnil)⟩
    obtain h | ⟨⟨q, rest⟩, hdisjunction, h⟩ := Passes.bind_eq_error_iff.1 h
    · exact Parser.Call.Fails.pointsInto (c := .disjunction _) h hsuffix hready
    · dsimp only at h
      split at h
      · rename_i hrest
        obtain h | ⟨-, -, h⟩ := Passes.bind_eq_error_iff.1 h
        · exact (laid_whole hdisjunction hrest).pointsInto h
        · cases h
      · rename_i b more hrest
        obtain rfl : b = 41 := Parser.head?_of_disjunction hdisjunction b (by rw [hrest]; rfl)
        have hback : 41 :: more <:+ text := by
          rw [← hrest]
          exact (Parser.trimLeft_suffix rest).trans
            ((Parser.laid_disjunction hdisjunction).covers.suffix.trans hsuffix)
        exact ⟨.strayClose, 41 :: more, hback, (Except.error.inj h).symm, rfl⟩

/-- What a fault points at is a byte, unless it is at the end of a text that is white space or ends
in a bar. -/
theorem byte_or_end_of_pointsAt {fault : QueryFault} {s : Bytes} (h : fault.PointsAt text s) :
    (s = [] ∧ (fault = .emptyQuery ∧ Blank text ∨ fault = .missingAlternative ∧
      ∃ before blank, Blank blank ∧ text = before ++ 124 :: blank)) ∨
    ∃ b ∈ ([34, 40, 41, 124, 45, 42] : List UInt8), s.head? = some b := by
  cases fault with
  | emptyQuery => exact .inl ⟨h.1, .inl ⟨rfl, h.2⟩⟩
  | missingAlternative =>
    obtain ⟨hends, before, blank, hblank, htext⟩ := h
    cases s with
    | nil =>
      rw [List.append_nil] at htext
      exact .inl ⟨rfl, .inr ⟨rfl, before, blank, hblank, htext⟩⟩
    | cons b s =>
      have hb : b = 124 ∨ b = 41 := by simpa [Parser.endsClause] using hends
      exact .inr ⟨b, by rcases hb with rfl | rfl <;> decide, rfl⟩
  | unexpected b => exact .inr ⟨b, by rcases h.2 with rfl | rfl <;> decide, h.1⟩
  | onlyNegations => exact .inr (h.elim (⟨40, by decide, ·⟩) (⟨45, by decide, ·⟩))
  | missingClause | strayByte | compoundWildcard => exact h.elim
  | _ => exact .inr ⟨_, by decide, h⟩

/-- **Reading comes to an end, in a tree or at a position.** No calls go on without end, because a
clause that is read has bytes and so has what comes before a bar; the functions find a byte where a
word begins. If a text is not read, it is refused at a quote, a parenthesis, a bar, a minus or a
star in it, or else at its end, where an alternative is missing behind a bar or the whole text is
white space; and nothing else can be left behind a query than a closing parenthesis. -/
theorem parse_comes_to_end (text : Bytes) :
    WellFounded (fun c' c : Parser.Call ↦ Parser.Calls text.length c c') ∧
    (∀ s q rest, Parser.clause text.length s = .ok (q, rest) →
      rest <:+ s ∧ rest.length < s.length) ∧
    (∀ s t q rest, Parser.conjunction text.length s = .ok (q, rest) →
      Parser.afterBar? (Bytes.trimLeft rest) = some t → (Bytes.trimLeft t).length < s.length) ∧
    (∀ s, Parser.IsMade text (.lexeme s) → s.takeWhile Parser.isWordByte ≠ []) ∧
    ((∃ t, parse text = .ok t) ∨ ∃ fault position, parse text = .error (.query fault position) ∧
      fault ≠ .strayByte ∧ position ≤ text.length ∧
      (position = text.length → fault = .emptyQuery ∧ Blank text ∨ fault = .missingAlternative ∧
        ∃ before blank, Blank blank ∧ text = before ++ 124 :: blank) ∧
      (position < text.length →
        ∃ b ∈ ([34, 40, 41, 124, 45, 42] : List UInt8), text[position]? = some b)) := by
  refine ⟨Parser.wellFounded_calls _, fun s q rest h ↦ ?_, fun s t q rest ↦
    Parser.length_lt_of_next,
    fun s ↦ Parser.IsMade.isReady, ?_⟩
  · exact ⟨(Parser.laid_clause h).covers.suffix, Parser.length_lt_of_clause h⟩
  · rcases hparse : parse text with e | t
    · obtain ⟨fault, s, hs, rfl, hpoints⟩ := pointsInto_of_parse hparse
      have hbyte := getElem?_offset hs
      refine .inr ⟨fault, _, rfl, ?_, Nat.sub_le _ _, fun hend ↦ ?_, fun hlt ↦ ?_⟩
      · rintro rfl
        exact hpoints
      · obtain ⟨-, hmissing⟩ | ⟨b, -, hb⟩ := byte_or_end_of_pointsAt hpoints
        · exact hmissing
        · rw [hend, List.getElem?_eq_none (Nat.le_refl _), hb] at hbyte
          cases hbyte
      · obtain ⟨rfl, -⟩ | ⟨b, hmem, hb⟩ := byte_or_end_of_pointsAt hpoints
        · exact absurd hlt (Nat.lt_irrefl _)
        · exact ⟨b, hmem, hbyte.trans hb⟩
    · exact .inl ⟨t, rfl⟩

/-- Behind the last bar an alternative is missing, white space or not. -/
example : parse (utf8 "(a) | ") = .error (.query .missingAlternative 6) := by
  with_unfolding_all rfl

end Query

end Concordance
