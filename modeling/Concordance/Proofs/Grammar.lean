import Concordance.Proofs.Negation

/-!
# The grammar of queries

What a query text means is said here without reading it. Each part of the grammar is a relation
between the bytes before a part, the tree that it stands for, and the bytes after it, so that a word
can ask what comes next. White space may stand where the relations have a blank, and nowhere else:
not behind a minus, and not before a star.

```
disjunction  := conjunction (blank bar blank conjunction)*
conjunction  := clause (blank clause)*
clause       := primary | '-' primary
primary      := '"' text '"' | '(' blank disjunction blank ')' | word | word '*'
```

The trees of the grammar have no positions (`Query.unplaced`).
-/

namespace Concordance.Query.Grammar

/-! ### Bytes -/

/-- White space, or nothing. -/
def Blank (s : Bytes) : Prop :=
  ∀ b ∈ s, Bytes.isSpace b = true

/-- The bytes that end a word by what they mean: a quote, the parentheses and a bar. -/
def marks : List UInt8 :=
  [34, 40, 41, 124]

/-- A word of a query: at least one byte, no white space, no mark and no star, and no minus in
front. -/
structure Word (w : Bytes) : Prop where
  nonempty : w ≠ []
  plain : ∀ b ∈ w, Bytes.isSpace b = false ∧ b ∉ marks ∧ b ≠ 42
  unsigned : w.head? ≠ some 45

/-- A word can end before these bytes: before the end of the text, white space, or a mark. -/
def EndsWord (rest : Bytes) : Prop :=
  ∀ b ∈ rest.head?, Bytes.isSpace b = true ∨ b ∈ marks

/-- The maximal runs of a text that are free of white space, in order. -/
inductive Runs : Bytes → List Bytes → Prop
  | blank {s : Bytes} (h : Blank s) : Runs s []
  | run {blank w rest : Bytes} {ws : List Bytes} (hblank : Blank blank) (hne : w ≠ [])
      (hw : ∀ b ∈ w, Bytes.isSpace b = false) (hend : ∀ b ∈ rest.head?, Bytes.isSpace b = true)
      (h : Runs rest ws) : Runs (blank ++ (w ++ rest)) (w :: ws)

/-- A bar, which may be doubled. -/
def IsBar (bar : Bytes) : Prop :=
  bar = [124] ∨ bar = [124, 124]

/-- Several trees under a node; a single one stands for itself. -/
inductive Gathers (node : List Query → Query) : List Query → Query → Prop
  | single (q : Query) : Gathers node [q] q
  | several {qs : List Query} (h : 2 ≤ qs.length) : Gathers node qs (node qs)

/-! ### Parts of a text -/

mutual

/-- A phrase, a group, a word or a wildcard. -/
inductive Primary : Bytes → Query → Bytes → Prop
  | phrase {text rest : Bytes} {words : List Bytes} (hquote : 34 ∉ text)
      (hfull : ∃ b ∈ text, Bytes.isSpace b = false) (hwords : Runs text words) :
      Primary (34 :: (text ++ 34 :: rest)) (.phrase 0 text words) rest
  | group {before s after rest : Bytes} {q : Query} (hbefore : Blank before) (hafter : Blank after)
      (h : Disjunction s q (after ++ 41 :: rest)) : Primary (40 :: (before ++ s)) q rest
  | word {w rest : Bytes} (hw : Word w) (hrest : EndsWord rest) :
      Primary (w ++ rest) (.word 0 w) rest
  | wildcard {w rest : Bytes} (hw : Word w) (hrest : EndsWord rest) :
      Primary (w ++ 42 :: rest) (.wildcard 0 w) rest

/-- A clause, which a minus negates. -/
inductive Clause : Bytes → Query → Bytes → Prop
  | positive {s rest : Bytes} {q : Query} (h : Primary s q rest) : Clause s q rest
  | negative {s rest : Bytes} {q : Query} (h : Primary s q rest) : Clause (45 :: s) (.neg 0 q) rest

/-- At least one clause. -/
inductive Clauses : Bytes → List Query → Bytes → Prop
  | one {s rest : Bytes} {q : Query} (h : Clause s q rest) : Clauses s [q] rest
  | more {s blank t rest : Bytes} {q : Query} {qs : List Query} (h : Clause s q (blank ++ t))
      (hblank : Blank blank) (hmore : Clauses t qs rest) : Clauses s (q :: qs) rest

/-- Clauses side by side. -/
inductive Conjunction : Bytes → Query → Bytes → Prop
  | mk {s rest : Bytes} {qs : List Query} {q : Query} (h : Clauses s qs rest)
      (hq : Gathers (.conj 0) qs q) : Conjunction s q rest

/-- At least one conjunction, with bars between. -/
inductive Alternatives : Bytes → List Query → Bytes → Prop
  | one {s rest : Bytes} {q : Query} (h : Conjunction s q rest) : Alternatives s [q] rest
  | more {s before bar after t rest : Bytes} {q : Query} {qs : List Query}
      (h : Conjunction s q (before ++ (bar ++ (after ++ t)))) (hbefore : Blank before)
      (hbar : IsBar bar) (hafter : Blank after)
      (hmore : Alternatives t qs rest) : Alternatives s (q :: qs) rest

/-- Alternatives. -/
inductive Disjunction : Bytes → Query → Bytes → Prop
  | mk {s rest : Bytes} {qs : List Query} {q : Query} (h : Alternatives s qs rest)
      (hq : Gathers (.disj 0) qs q) : Disjunction s q rest

end

/-- **A whole query text** and the tree that it stands for. -/
def Text (text : Bytes) (q : Query) : Prop :=
  ∃ before s after, Blank before ∧ text = before ++ s ∧ Disjunction s q after ∧ Blank after

/-! ### White space and runs -/

/-- White space in front is taken off. -/
theorem trimLeft_append {blank : Bytes} (h : Blank blank) (s : Bytes) :
    Bytes.trimLeft (blank ++ s) = Bytes.trimLeft s :=
  List.dropWhile_append_of_pos h

theorem trimLeft_cons {b : UInt8} (h : Bytes.isSpace b = false) (s : Bytes) :
    Bytes.trimLeft (b :: s) = b :: s :=
  List.dropWhile_cons_of_neg (Bool.eq_false_iff.1 h)

/-- What is trimmed is white space. -/
theorem exists_blank (s : Bytes) : ∃ blank, Blank blank ∧ s = blank ++ Bytes.trimLeft s :=
  ⟨s.takeWhile Bytes.isSpace, List.all_eq_true.1 List.all_takeWhile,
    List.takeWhile_append_dropWhile.symm⟩

theorem trimLeft_trimLeft (s : Bytes) : Bytes.trimLeft (Bytes.trimLeft s) = Bytes.trimLeft s := by
  obtain ⟨blank, hblank, hs⟩ := exists_blank s
  rw [← trimLeft_append hblank, ← hs]

/-- White space stands side by side. -/
theorem Blank.append {s t : Bytes} (h : Blank s) (h' : Blank t) : Blank (s ++ t) :=
  List.forall_mem_append.2 ⟨h, h'⟩

/-- The bytes that a test admits end where it fails. -/
theorem eq_false_of_mem_head?_dropWhile {p : UInt8 → Bool} {s : Bytes} {b : UInt8}
    (hb : b ∈ (s.dropWhile p).head?) : p b = false := by
  have hnot := List.head?_dropWhile_not p s
  rw [Option.mem_def.1 hb] at hnot
  exact hnot

/-- A text begins without white space exactly if there is nothing to trim. -/
theorem trimLeft_eq_self_iff {s : Bytes} :
    Bytes.trimLeft s = s ↔ s.head?.any Bytes.isSpace = false := by
  cases s with
  | nil => exact iff_of_true rfl rfl
  | cons b s =>
    refine ⟨fun h ↦ ?_, fun h ↦ trimLeft_cons h s⟩
    have hb : b ∈ (Bytes.trimLeft (b :: s)).head? := by
      rw [h]
      rfl
    exact eq_false_of_mem_head?_dropWhile hb

/-- Every text has runs. -/
theorem exists_runs (s : Bytes) : ∃ ws, Runs s ws := by
  obtain ⟨blank, hblank, hs⟩ := exists_blank s
  have hfirst : ∀ b ∈ (Bytes.trimLeft s).head?, Bytes.isSpace b = false :=
    fun b hb ↦ eq_false_of_mem_head?_dropWhile hb
  cases ht : Bytes.trimLeft s with
  | nil =>
    rw [ht, List.append_nil] at hs
    exact ⟨[], .blank (hs ▸ hblank)⟩
  | cons b t =>
    rw [ht] at hs hfirst
    have hb : (!Bytes.isSpace b) = true := by rw [hfirst b rfl, Bool.not_false]
    have hsplit : t = t.takeWhile (!Bytes.isSpace ·) ++ t.dropWhile (!Bytes.isSpace ·) :=
      List.takeWhile_append_dropWhile.symm
    have hrun : ∀ c ∈ b :: t.takeWhile (!Bytes.isSpace ·), Bytes.isSpace c = false := by
      refine List.forall_mem_cons.2 ⟨hfirst b rfl, fun c hc ↦ ?_⟩
      simpa using List.all_eq_true.1 List.all_takeWhile c hc
    have hend : ∀ c ∈ (t.dropWhile (!Bytes.isSpace ·)).head?, Bytes.isSpace c = true :=
      fun c hc ↦ by simpa using eq_false_of_mem_head?_dropWhile hc
    -- what is left after the run is shorter than the text
    have hlt : (t.dropWhile (!Bytes.isSpace ·)).length < s.length := by
      have hle := (List.dropWhile_suffix (!Bytes.isSpace ·) (l := t)).length_le
      rw [hs, List.length_append, List.length_cons]
      omega
    obtain ⟨ws, hws⟩ := exists_runs (t.dropWhile (!Bytes.isSpace ·))
    rw [hs, hsplit]
    exact ⟨_, .run hblank (List.cons_ne_nil _ _) hrun hend hws⟩
termination_by s.length

/-- White space before words does not matter. -/
theorem words_append_blank {blank : Bytes} (h : Blank blank) (s : Bytes) :
    Bytes.words (blank ++ s) = Bytes.words s := by
  induction blank with
  | nil => rfl
  | cons b blank ih =>
    obtain ⟨hb, hblank⟩ := List.forall_mem_cons.1 h
    rw [← ih hblank, Bytes.words, List.cons_append, Bytes.runsWithout.eq_def]
    exact if_pos hb

/-- A run without white space is a word. -/
theorem words_append_run {w rest : Bytes} (hne : w ≠ [])
    (hw : ∀ b ∈ w, Bytes.isSpace b = false) (hend : ∀ b ∈ rest.head?, Bytes.isSpace b = true) :
    Bytes.words (w ++ rest) = w :: Bytes.words rest := by
  induction w with
  | nil => exact absurd rfl hne
  | cons b w ih =>
    obtain ⟨hb, hw⟩ := List.forall_mem_cons.1 hw
    cases w with
    | nil =>
      cases rest with
      | nil => simp [Bytes.words, Bytes.runsWithout, hb]
      | cons c rest =>
        have hc : Bytes.isSpace c = true := hend c rfl
        simp [Bytes.words, Bytes.runsWithout, hb, hc]
    | cons c w =>
      have ih := ih (List.cons_ne_nil c w) hw
      have hc : Bytes.isSpace c = false := hw c List.mem_cons_self
      simp only [Bytes.words, List.cons_append] at ih ⊢
      rw [Bytes.runsWithout.eq_def]
      simp only [hb, hc, ih]
      simp

/-- **The runs of a text are its words.** -/
theorem Runs.words_eq {s : Bytes} {ws : List Bytes} (h : Runs s ws) : Bytes.words s = ws := by
  induction h with
  | @blank s h =>
    rw [← List.append_nil s, words_append_blank h]
    rfl
  | run hblank hne hw hend _ ih =>
    rw [words_append_blank hblank, words_append_run hne hw hend, ih]

/-- **The words of a text are its runs.** -/
theorem runs_iff {s : Bytes} {ws : List Bytes} : Runs s ws ↔ Bytes.words s = ws := by
  refine ⟨Runs.words_eq, fun h ↦ ?_⟩
  obtain ⟨ws', hruns⟩ := exists_runs s
  rwa [← h, hruns.words_eq]

/-- A text has words if not all of it is white space. -/
theorem words_ne_nil_iff {s : Bytes} :
    Bytes.words s ≠ [] ↔ ∃ b ∈ s, Bytes.isSpace b = false := by
  obtain ⟨ws, hruns⟩ := exists_runs s
  rw [hruns.words_eq]
  cases hruns with
  | blank h =>
    refine ⟨fun hne ↦ absurd rfl hne, fun ⟨b, hb, hfalse⟩ ↦ ?_⟩
    rw [h b hb] at hfalse
    cases hfalse
  | @run blank w rest ws hblank hne hw hend h =>
    obtain ⟨b, hb⟩ := List.exists_mem_of_ne_nil w hne
    exact ⟨fun _ ↦ ⟨b, by simp [hb], hw b hb⟩, fun _ ↦ List.cons_ne_nil w ws⟩

/-! ### Every part has bytes -/

mutual

/-- **Every part has a byte**, so what is left of the text is shorter. -/
theorem Primary.length_lt {s rest : Bytes} {q : Query} :
    Primary s q rest → rest.length < s.length
  | .phrase .. => by
    simp only [List.length_cons, List.length_append]
    omega
  | .group _ _ h => by
    have hlt := h.length_lt
    simp only [List.length_cons, List.length_append] at hlt ⊢
    omega
  | .word hw _ => by
    have hpos := List.length_pos_iff.2 hw.nonempty
    rw [List.length_append]
    omega
  | .wildcard hw _ => by
    rw [List.length_append, List.length_cons]
    omega

theorem Clause.length_lt {s rest : Bytes} {q : Query} : Clause s q rest → rest.length < s.length
  | .positive h => h.length_lt
  | .negative h => Nat.lt_succ_of_lt h.length_lt

theorem Clauses.length_lt {s rest : Bytes} {qs : List Query} :
    Clauses s qs rest → rest.length < s.length
  | .one h => h.length_lt
  | .more h _ hmore => by
    have hlt := h.length_lt
    have hlt' := hmore.length_lt
    rw [List.length_append] at hlt
    omega

theorem Conjunction.length_lt {s rest : Bytes} {q : Query} :
    Conjunction s q rest → rest.length < s.length
  | .mk h _ => h.length_lt

theorem Alternatives.length_lt {s rest : Bytes} {qs : List Query} :
    Alternatives s qs rest → rest.length < s.length
  | .one h => h.length_lt
  | .more h _ _ _ hmore => by
    have hlt := h.length_lt
    have hlt' := hmore.length_lt
    simp only [List.length_append] at hlt
    omega

theorem Disjunction.length_lt {s rest : Bytes} {q : Query} :
    Disjunction s q rest → rest.length < s.length
  | .mk h _ => h.length_lt

end

/-! ### No tree has an empty conjunction -/

/-- There is at least one clause. -/
theorem Clauses.ne_nil {s rest : Bytes} {qs : List Query} (h : Clauses s qs rest) : qs ≠ [] := by
  cases h <;> exact List.cons_ne_nil _ _

theorem Alternatives.ne_nil {s rest : Bytes} {qs : List Query} (h : Alternatives s qs rest) :
    qs ≠ [] := by
  cases h <;> exact List.cons_ne_nil _ _

/-- No node is an empty conjunction. -/
def Filled (t : Query) : Prop :=
  ∀ node, IsNode node t → node.HasOperands

theorem filled_iff {t : Query} : Filled t ↔ t.HasOperands ∧ ∀ q ∈ t.operands, Filled q :=
  forall_isNode_iff

/-- What conjoins filled trees is filled, also if it is one of them. -/
theorem filled_conj {qs : List Query} {q : Query} (h : ∀ q ∈ qs, Filled q)
    (hq : Gathers (.conj 0) qs q) : Filled q := by
  cases hq with
  | single q => exact h q (List.mem_singleton_self q)
  | several hlength =>
    refine filled_iff.2 ⟨fun _ ↦ ?_, h⟩
    show qs ≠ []
    rintro rfl
    exact absurd hlength (by decide)

theorem filled_disj {qs : List Query} {q : Query} (h : ∀ q ∈ qs, Filled q)
    (hq : Gathers (.disj 0) qs q) : Filled q := by
  cases hq with
  | single q => exact h q (List.mem_singleton_self q)
  | several hlength => exact filled_iff.2 ⟨nofun, h⟩

mutual

/-- **All nodes of a tree of the grammar have operands**, part by part. -/
theorem Primary.filled {s rest : Bytes} {q : Query} : Primary s q rest → Filled q
  | .phrase .. | .word .. | .wildcard .. => filled_iff.2 ⟨nofun, nofun⟩
  | .group _ _ h => h.filled

theorem Clause.filled {s rest : Bytes} {q : Query} : Clause s q rest → Filled q
  | .positive h => h.filled
  | .negative h => filled_iff.2 ⟨nofun, List.forall_mem_singleton.2 h.filled⟩

theorem Clauses.filled {s rest : Bytes} {qs : List Query} :
    Clauses s qs rest → ∀ q ∈ qs, Filled q
  | .one h => List.forall_mem_singleton.2 h.filled
  | .more h _ hmore => List.forall_mem_cons.2 ⟨h.filled, hmore.filled⟩

theorem Conjunction.filled {s rest : Bytes} {q : Query} : Conjunction s q rest → Filled q
  | .mk h hq => filled_conj h.filled hq

theorem Alternatives.filled {s rest : Bytes} {qs : List Query} :
    Alternatives s qs rest → ∀ q ∈ qs, Filled q
  | .one h => List.forall_mem_singleton.2 h.filled
  | .more h _ _ _ hmore => List.forall_mem_cons.2 ⟨h.filled, hmore.filled⟩

theorem Disjunction.filled {s rest : Bytes} {q : Query} : Disjunction s q rest → Filled q
  | .mk h hq => filled_disj h.filled hq

end

end Concordance.Query.Grammar
