import Concordance.Proofs.Grammar
import Concordance.Query.Parser

/-!
# What is read is derived

The functions that read a query follow the grammar, one for each part, and the induction here is
their recursion. Each of them either derives what it has read or refuses it with a fault of the
query (`Yields`), so whatever text a query is read from has a derivation of its tree, and no text is
refused in another way (`yields_parse`).

A function looks past the white space after a part, which the grammar leaves to what comes next. So
the part that is derived ends some white space before the bytes that are left.
-/

namespace Concordance.Query

open Grammar

namespace Parser

variable {α β : Type}

/-- What is read has a property, and what cannot be read is a fault of the query. -/
def Yields (x : Except Error α) (p : α → Prop) : Prop :=
  match x with
  | .ok a => p a
  | .error e => ∃ fault position, e = .query fault position

/-- What is read after a part may rely on what the part yields. -/
theorem Yields.bind {x : Except Error α} {f : α → Except Error β} {p : α → Prop} {r : β → Prop}
    (h : Yields x p) (hf : ∀ a, p a → Yields (f a) r) : Yields (x >>= f) r := by
  cases x with
  | error e => exact h
  | ok a => exact hf a h

theorem Yields.mono {x : Except Error α} {p r : α → Prop} (h : Yields x p) (hpr : ∀ a, p a → r a) :
    Yields x r := by
  cases x with
  | error e => exact h
  | ok a => exact hpr a h

theorem yields_fail (fault : QueryFault) (position : Nat) (p : α → Prop) :
    Yields (fail fault position) p :=
  ⟨fault, position, rfl⟩

/-- What breaks the negation rule is a fault of the query. -/
theorem yields_checkNegation (t : Query) (inConjunction : Bool) :
    Yields (t.checkNegation inConjunction) fun _ ↦ True := by
  rcases h : t.checkNegation inConjunction with e | u
  · obtain ⟨fault, node, -, rfl⟩ := checkNegation_fault t h
    exact ⟨fault, node.position, rfl⟩
  · exact trivial

/-! ### Words and phrases -/

/-- A byte goes on a word if it is neither white space nor a mark. -/
theorem isWordByte_iff {b : UInt8} :
    isWordByte b = true ↔ Bytes.isSpace b = false ∧ b ∉ marks := by
  simp [isWordByte, marks, and_assoc]

/-- Behind all bytes of a word it can end. -/
theorem endsWord_dropWhile (s : Bytes) : EndsWord (s.dropWhile isWordByte) := by
  intro b hb
  have hnot : ¬ (Bytes.isSpace b = false ∧ b ∉ marks) := by
    rw [← isWordByte_iff, eq_false_of_mem_head?_dropWhile hb]
    exact Bool.false_ne_true
  rcases hspace : Bytes.isSpace b with _ | _
  · exact .inr (not_not.1 fun hmark ↦ hnot ⟨hspace, hmark⟩)
  · exact .inl rfl

/-- Where a byte stands first. -/
theorem idxOf?_eq_some_iff_append {s : Bytes} {b : UInt8} {i : Nat} : s.idxOf? b = some i ↔
    ∃ before after, s = before ++ b :: after ∧ b ∉ before ∧ before.length = i := by
  rw [List.idxOf?_eq_some_iff]
  constructor
  · intro ⟨hlt, hb, hbefore⟩
    refine ⟨s.take i, s.drop (i + 1), ?_, ?_, List.length_take_of_le (Nat.le_of_lt hlt)⟩
    · rw [← hb, List.getElem_cons_drop, List.take_append_drop]
    · intro hmem
      obtain ⟨j, hj, heq⟩ := List.mem_take_iff_getElem.1 hmem
      exact hbefore j (Nat.lt_of_lt_of_le hj (Nat.min_le_left ..)) heq
  · intro ⟨before, after, hs, hb, hi⟩
    subst hs hi
    refine ⟨by simp, by simp, fun j hj heq ↦ hb ?_⟩
    rw [List.getElem_append_left hj] at heq
    exact heq ▸ List.getElem_mem hj

/-- A word that is read has no minus in front, because a clause takes it as a sign. -/
theorem yields_lexeme (n : Nat) {s : Bytes} (hs : s.head? ≠ some 45) :
    Yields (lexeme n s) fun r ↦ Primary s r.1.unplaced r.2 := by
  have hsplit : s.takeWhile isWordByte ++ s.dropWhile isWordByte = s :=
    List.takeWhile_append_dropWhile
  have hend := endsWord_dropWhile s
  have hplain : ∀ b ∈ s.takeWhile isWordByte, Bytes.isSpace b = false ∧ b ∉ marks :=
    fun b hb ↦ isWordByte_iff.1 (List.all_eq_true.1 List.all_takeWhile b hb)
  rw [lexeme]
  generalize s.takeWhile isWordByte = text at *
  generalize s.dropWhile isWordByte = rest at *
  -- the minus that does not stand in front of the text does not stand in front of its part either
  have hword : ∀ w more, text = w ++ more → w ≠ [] → 42 ∉ w → Word w := by
    intro w more htext hne hstar
    refine ⟨hne, fun b hb ↦ ?_, fun hhead ↦ hs ?_⟩
    · obtain ⟨hspace, hmark⟩ := hplain b (htext ▸ List.mem_append_left more hb)
      exact ⟨hspace, hmark, fun heq ↦ hstar (heq ▸ hb)⟩
    · rw [← hsplit, htext, List.append_assoc, List.head?_append_of_ne_nil _ hne, hhead]
  split
  · exact yields_fail ..
  · rename_i hne
    split
    · rename_i hnone
      rw [List.idxOf?_eq_none_iff] at hnone
      rw [← hsplit]
      refine .word (hword text [] (List.append_nil text).symm ?_ hnone) hend
      exact fun hnil ↦ hne (List.isEmpty_iff.2 hnil)
    · rename_i i hi
      -- the first star is the last byte, so what stands before it has none
      obtain ⟨w, more, htext, hstar, hlength⟩ := idxOf?_eq_some_iff_append.1 hi
      split
      · exact yields_fail ..
      · rename_i hlast
        split
        · exact yields_fail ..
        · rename_i hpos
          have hnil : more = [] := by
            rw [htext, List.length_append, List.length_cons] at hlast
            exact List.length_eq_zero_iff.1 (by omega)
          have hne : w ≠ [] := fun hw ↦ hpos (by rw [← hlength, hw, List.length_nil])
          have htake : text.take i = w := by rw [htext, ← hlength, List.take_left]
          have hw : Word w := hword w [42] (by rw [htext, hnil]) hne hstar
          show Primary s (.wildcard 0 (text.take i)) rest
          rw [htake, ← hsplit, htext, hnil, List.append_assoc]
          exact .wildcard hw hend

/-- **What is read is what the grammar says.** Behind a quote this is a phrase. -/
theorem yields_quotation (n start : Nat) (s : Bytes) :
    Yields (quotation n start s) fun r ↦ Primary (34 :: s) r.1.unplaced r.2 := by
  have hsplit : s.takeWhile (· != 34) ++ s.dropWhile (· != 34) = s :=
    List.takeWhile_append_dropWhile
  have hquote : 34 ∉ s.takeWhile (· != 34) := fun hmem ↦ by
    simpa using List.all_eq_true.1 List.all_takeWhile 34 hmem
  have hclose : ∀ b ∈ (s.dropWhile (· != 34)).head?, b = 34 := fun b hb ↦ by
    simpa using eq_false_of_mem_head?_dropWhile hb
  rw [quotation]
  generalize s.takeWhile (· != 34) = text at *
  generalize s.dropWhile (· != 34) = back at *
  split
  · exact yields_fail ..
  · rename_i b rest
    have hb : b = 34 := hclose b rfl
    split
    · exact yields_fail ..
    · rename_i hfull
      split
      · exact yields_fail ..
      · have hwords : Bytes.words text ≠ [] := fun hnil ↦ hfull (List.isEmpty_iff.2 hnil)
        show Primary (34 :: s) (.phrase 0 text (Bytes.words text)) rest
        rw [← hsplit, hb]
        exact .phrase hquote (words_ne_nil_iff.1 hwords) (runs_iff.2 rfl)

/-! ### Nodes without positions -/

/-- Trees that are gathered are gathered without their positions. -/
theorem gathers_iff {node node' : List Query → Query}
    (hnode : ∀ qs, (node qs).unplaced = node' (qs.map unplaced)) {qs : List Query} {q : Query} :
    Gathers node' (qs.map unplaced) q ↔
      qs.map unplaced ≠ [] ∧ (gather node qs).unplaced = q := by
  match qs with
  | [] =>
    refine ⟨fun h ↦ ?_, fun h ↦ absurd rfl h.1⟩
    cases h with
    | several hlength => exact absurd hlength (by decide)
  | [q'] =>
    constructor
    · intro h
      cases h with
      | single => exact ⟨List.cons_ne_nil _ _, rfl⟩
      | several hlength => exact absurd hlength (by simp)
    · intro h
      rw [← h.2]
      exact .single _
  | q' :: q'' :: qs =>
    have hlength : 2 ≤ ((q' :: q'' :: qs).map unplaced).length := by simp
    constructor
    · intro h
      cases h with
      | several => exact ⟨List.cons_ne_nil _ _, hnode _⟩
    · intro h
      rw [← h.2, gather, hnode]
      · exact .several hlength
      · exact nofun

theorem unplaced_conj (position : Nat) (qs : List Query) :
    (conj position qs).unplaced = conj 0 (qs.map unplaced) := by
  rw [unplaced, unplacedAll_eq_map]

theorem unplaced_disj (position : Nat) (qs : List Query) :
    (disj position qs).unplaced = disj 0 (qs.map unplaced) := by
  rw [unplaced, unplacedAll_eq_map]

/-! ### Parts of a text -/

/-- What is found behind a bar stands behind one. -/
theorem exists_bar {s t : Bytes} (h : afterBar? s = some t) :
    ∃ bar, IsBar bar ∧ s = bar ++ t := by
  rw [afterBar?.eq_def] at h
  split at h
  · exact ⟨[124, 124], .inr rfl, by rw [← Option.some.inj h]; rfl⟩
  · exact ⟨[124], .inl rfl, by rw [← Option.some.inj h]; rfl⟩
  · cases h

mutual

/-- **Alternatives that are read are derived**, and so are all parts of them. -/
theorem yields_disjunction (n : Nat) (s : Bytes) : Yields (disjunction n s) fun r ↦
    ∃ blank, Blank blank ∧ Disjunction (Bytes.trimLeft s) r.1.unplaced (blank ++ r.2) := by
  rw [disjunction]
  refine (yields_alternatives n s).bind fun ⟨qs, rest⟩ ⟨blank, hblank, h⟩ ↦ ?_
  exact ⟨blank, hblank, .mk h ((gathers_iff (unplaced_disj _)).2 ⟨h.ne_nil, rfl⟩)⟩
termination_by 6 * s.length + 5

theorem yields_alternatives (n : Nat) (s : Bytes) : Yields (alternatives n s) fun r ↦
    ∃ blank, Blank blank ∧
      Alternatives (Bytes.trimLeft s) (r.1.map unplaced) (blank ++ r.2) := by
  rw [alternatives]
  refine (yields_conjunction n s).bind fun ⟨q, rest⟩ ⟨blank, hblank, h⟩ ↦ ?_
  obtain ⟨before, hbefore, hrest⟩ := exists_blank rest
  have hbefore : Blank (blank ++ before) := hblank.append hbefore
  have h : Conjunction (Bytes.trimLeft s) q.unplaced (blank ++ before ++ Bytes.trimLeft rest) := by
    rwa [List.append_assoc, ← hrest]
  dsimp only
  split
  · exact ⟨_, hbefore, .one h⟩
  · rename_i t ht
    obtain ⟨bar, hbar, hrest⟩ := exists_bar ht
    obtain ⟨after, hafter, heq⟩ := exists_blank t
    have h : Conjunction (Bytes.trimLeft s) q.unplaced
        (blank ++ before ++ (bar ++ (after ++ Bytes.trimLeft t))) := by
      rwa [← heq, ← hrest]
    split
    · exact yields_fail ..
    · split
      · refine (yields_alternatives n (Bytes.trimLeft t)).bind fun ⟨qs, rest⟩ hmore ↦ ?_
        obtain ⟨blank, hblank, h'⟩ := hmore
        rw [trimLeft_trimLeft] at h'
        exact ⟨blank, hblank, .more h hbefore hbar hafter h'⟩
      · -- a loop that does not go on would leave the bar without what comes after it, but the
        -- conjunction before it has bytes
        have hlt := h.length_lt
        have hle' := Bytes.length_trimLeft_le s
        simp only [List.length_append] at hlt
        omega
termination_by 6 * s.length + 4

theorem yields_conjunction (n : Nat) (s : Bytes) : Yields (conjunction n s) fun r ↦
    ∃ blank, Blank blank ∧ Conjunction (Bytes.trimLeft s) r.1.unplaced (blank ++ r.2) := by
  rw [conjunction]
  dsimp only
  split
  · split <;> exact yields_fail ..
  · rename_i hbegins
    have hle := Bytes.length_trimLeft_le s
    refine (yields_clauses n (Bytes.trimLeft s)).bind fun ⟨qs, rest⟩ h ↦ ?_
    rw [trimLeft_trimLeft] at h
    obtain ⟨hends, -⟩ | ⟨blank, hblank, h⟩ := h
    · exact absurd hends hbegins
    · exact ⟨blank, hblank, .mk h ((gathers_iff (unplaced_conj _)).2 ⟨h.ne_nil, rfl⟩)⟩
termination_by 6 * s.length + 3

/-- Clauses that are read are derived, unless there are none. -/
theorem yields_clauses (n : Nat) (s : Bytes) : Yields (clauses n s) fun r ↦
    endsClause (Bytes.trimLeft s) = true ∧ r = ([], Bytes.trimLeft s) ∨
      ∃ blank, Blank blank ∧ Clauses (Bytes.trimLeft s) (r.1.map unplaced) (blank ++ r.2) := by
  rw [clauses]
  dsimp only
  split
  · rename_i hends
    exact .inl ⟨hends, rfl⟩
  · have hle := Bytes.length_trimLeft_le s
    refine (yields_clause n (Bytes.trimLeft s)).bind fun ⟨q, rest⟩ h ↦ ?_
    obtain ⟨blank, hblank, hrest⟩ := exists_blank rest
    dsimp only
    split
    · rename_i hlt
      refine (yields_clauses n rest).bind fun ⟨qs, rest'⟩ h' ↦ ?_
      dsimp only at h h'
      rw [hrest] at h
      obtain ⟨-, heq⟩ | ⟨blank', hblank', h'⟩ := h'
      · -- this was the last clause, and the white space after it is read with it
        obtain ⟨rfl, rfl⟩ := Prod.mk.inj heq
        exact .inr ⟨blank, hblank, .one h⟩
      · exact .inr ⟨blank', hblank', .more h hblank h'⟩
    · exact .inr ⟨[], nofun, .one h⟩
termination_by 6 * s.length + 2

/-- A clause is read as one of the grammar. -/
theorem yields_clause (n : Nat) (s : Bytes) :
    Yields (clause n s) fun r ↦ Clause s r.1.unplaced r.2 := by
  rw [clause.eq_def]
  split
  · rename_i t
    split
    · exact yields_fail ..
    · split
      · exact yields_fail ..
      · rename_i hminus
        have ht : t.head? ≠ some 45 := fun heq ↦ hminus (by rw [heq]; rfl)
        exact (yields_primary n ht).bind fun ⟨q, rest⟩ h ↦ .negative h
  · -- without a sign a clause does not begin with a minus
    rename_i hplain
    have hs : s.head? ≠ some 45 := by
      intro heq
      obtain ⟨t, rfl⟩ := List.head?_eq_some_iff.1 heq
      exact hplain t rfl
    exact Yields.mono (yields_primary n hs) fun _ ↦ .positive
termination_by 6 * s.length + 1

/-- What is read without a sign is derived, because nothing without a sign begins with a minus. -/
theorem yields_primary (n : Nat) {s : Bytes} (hs : s.head? ≠ some 45) :
    Yields (primary n s) fun r ↦ Primary s r.1.unplaced r.2 := by
  rw [primary.eq_def]
  split
  · exact yields_quotation ..
  · rename_i t
    dsimp only
    split
    · exact yields_fail ..
    · split
      · exact yields_fail ..
      · have hle := Bytes.length_trimLeft_le t
        obtain ⟨before, hbefore, heq⟩ := exists_blank t
        refine (yields_disjunction n (Bytes.trimLeft t)).bind fun ⟨q, rest⟩ ⟨blank, hblank, h⟩ ↦ ?_
        dsimp only at h ⊢
        obtain ⟨after, hafter, hrest⟩ := exists_blank rest
        split
        · rename_i rest' hclose
          rw [trimLeft_trimLeft, hrest, hclose, ← List.append_assoc] at h
          show Primary (40 :: t) q.unplaced rest'
          rw [heq]
          exact .group hbefore (hblank.append hafter) h
        · exact yields_fail ..
  · exact yields_lexeme n hs
termination_by 6 * s.length
decreasing_by
  subst_vars
  rw [List.length_cons]
  omega

end

end Parser

open Concordance.Query.Parser

/-- **A query that is read** has a text of the grammar and keeps the negation rule. -/
theorem yields_parse (text : Bytes) :
    Yields (parse text) fun t ↦ Text text t.unplaced ∧ t.KeepsNegationRule := by
  rw [parse]
  obtain ⟨before, hbefore, htext⟩ := exists_blank text
  dsimp only
  split
  · exact yields_fail ..
  · refine (yields_disjunction _ (Bytes.trimLeft text)).bind fun ⟨q, rest⟩ ⟨blank, hblank, h⟩ ↦ ?_
    dsimp only at h ⊢
    obtain ⟨after, hafter, hrest⟩ := exists_blank rest
    split
    · rename_i hnil
      rw [hnil, List.append_nil] at hrest
      rw [trimLeft_trimLeft] at h
      have hfilled := hasOperands_unplaced.1 h.filled
      cases hcheck : q.checkNegation false with
      | error e =>
        have he := yields_checkNegation q false
        rw [hcheck] at he
        exact he
      | ok u =>
        refine ⟨⟨before, _, _, hbefore, htext, h, ?_⟩, (checkNegation_false_iff hfilled).1 hcheck⟩
        exact hblank.append (hrest ▸ hafter)
    · exact yields_fail ..

end Concordance.Query
