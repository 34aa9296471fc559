import Mathlib.Logic.Relation
import Concordance.Proofs.Layout

/-!
# The calls that reading a query makes

The functions that read a query call each other, each on what is left of the query at some point
(`Calls`); a turn of one of the two loops is a call too. A call that goes deeper without using up a
byte goes down a rank, so no calls go on without end (`wellFounded_calls`). That the loops go on
only while they use up the query is not needed for it, because what is read before the next turn has
bytes.

What the functions rely on when they are called (`Call.IsReady`) is kept from each call to those
that it makes (`Calls.isReady`), and so in all calls that a text leads to (`IsMade.isReady`). In
particular a word that is read has a byte.
-/

namespace Concordance.Query.Parser

open Grammar

/-! ### Calls -/

/-- A call of one of the functions that read a query, with what is left of the query. -/
inductive Call where
  | disjunction (s : Bytes)
  | alternatives (s : Bytes)
  | conjunction (s : Bytes)
  | clauses (s : Bytes)
  | clause (s : Bytes)
  | primary (s : Bytes)
  /-- A phrase; `s` is left behind the opening quote. -/
  | quotation (s : Bytes)
  | lexeme (s : Bytes)

namespace Call

/-- The text that is left where a call is made. -/
def left : Call → Bytes
  | disjunction s | alternatives s | conjunction s | clauses s | clause s | primary s
    | lexeme s => s
  | quotation s => 34 :: s

/-- How deep calls can go on the same text. -/
def rank : Call → Nat
  | disjunction _ => 6
  | alternatives _ => 5
  | conjunction _ => 4
  | clauses _ => 3
  | clause _ => 2
  | primary _ => 1
  | quotation _ | lexeme _ => 0

theorem rank_le (c : Call) : c.rank ≤ 6 := by
  cases c <;> exact Nat.le_of_ble_eq_true rfl

/-- What the functions rely on when they are called: alternatives and conjunctions begin at
something that is no white space, and single clauses where a clause can begin. -/
def IsReady : Call → Prop
  | disjunction s | alternatives s | conjunction s => Bytes.trimLeft s = s ∧ s ≠ []
  | clause s | primary s => Bytes.trimLeft s = s ∧ endsClause s = false
  | lexeme s => s.takeWhile isWordByte ≠ []
  | clauses _ | quotation _ => True

end Call

/-- **What a call calls.** The next turn of a loop is a call as well. -/
inductive Calls (n : Nat) : Call → Call → Prop
  | alternatives (s : Bytes) : Calls n (.disjunction s) (.alternatives s)
  | conjunction (s : Bytes) : Calls n (.alternatives s) (.conjunction s)
  | next {s t rest : Bytes} {q : Query} (hq : conjunction n s = .ok (q, rest))
      (hbar : afterBar? (Bytes.trimLeft rest) = some t)
      (hmore : endsClause (Bytes.trimLeft t) = false) :
      Calls n (.alternatives s) (.alternatives (Bytes.trimLeft t))
  | clauses {s : Bytes} (hmore : endsClause (Bytes.trimLeft s) = false) :
      Calls n (.conjunction s) (.clauses (Bytes.trimLeft s))
  | clause {s : Bytes} (hmore : endsClause (Bytes.trimLeft s) = false) :
      Calls n (.clauses s) (.clause (Bytes.trimLeft s))
  | more {s rest : Bytes} {q : Query} (hmore : endsClause (Bytes.trimLeft s) = false)
      (hq : clause n (Bytes.trimLeft s) = .ok (q, rest)) : Calls n (.clauses s) (.clauses rest)
  | operand {t : Bytes} (hmore : endsClause t = false)
      (hspace : t.head?.any Bytes.isSpace = false) (hsign : t.head? ≠ some 45) :
      Calls n (.clause (45 :: t)) (.primary t)
  | primary {s : Bytes} (hsign : s.head? ≠ some 45) : Calls n (.clause s) (.primary s)
  | quotation (t : Bytes) : Calls n (.primary (34 :: t)) (.quotation t)
  | group {t : Bytes} (hclose : (Bytes.trimLeft t).head? ≠ some 41) (hne : Bytes.trimLeft t ≠ []) :
      Calls n (.primary (40 :: t)) (.disjunction (Bytes.trimLeft t))
  | lexeme {s : Bytes} (hquote : s.head? ≠ some 34) (hopen : s.head? ≠ some 40) :
      Calls n (.primary s) (.lexeme s)

/-! ### Calls come to an end -/

section Step

variable {n : Nat} {c c' : Call}

/-- A call is made on an end of what its caller has left. -/
theorem Calls.left_suffix (h : Calls n c c') : c'.left <:+ c.left := by
  cases h with
  | alternatives | conjunction | primary | quotation | lexeme => exact List.suffix_rfl
  | @next s t rest q hq hbar hmore =>
    obtain ⟨bar, -, heq⟩ := exists_bar hbar
    have htrim : t <:+ Bytes.trimLeft rest := heq ▸ List.suffix_append bar t
    exact (trimLeft_suffix t).trans
      ((htrim.trans (trimLeft_suffix rest)).trans (laid_conjunction hq).covers.suffix)
  | clauses | clause => exact trimLeft_suffix _
  | more _ hq => exact (laid_clause hq).covers.suffix.trans (trimLeft_suffix _)
  | operand => exact List.suffix_cons 45 _
  | group => exact (trimLeft_suffix _).trans (List.suffix_cons 40 _)

/-- It has less left than its caller, or no more and a lower rank. -/
theorem Calls.length_lt_or (h : Calls n c c') :
    c'.left.length < c.left.length ∨ c'.left.length ≤ c.left.length ∧ c'.rank < c.rank := by
  have hle := h.left_suffix.length_le
  cases h with
  | next hq hbar => exact .inl (length_lt_of_next hq hbar)
  | more _ hq =>
    exact .inl (Nat.lt_of_lt_of_le (length_lt_of_clause hq) (trimLeft_suffix _).length_le)
  | operand => exact .inl (Nat.lt_succ_self _)
  | group => exact .inl (Nat.lt_succ_of_le (trimLeft_suffix _).length_le)
  | _ => exact .inr ⟨hle, Nat.lt_succ_self _⟩

/-- **No calls go on without end.** -/
theorem wellFounded_calls (n : Nat) : WellFounded fun c' c : Call ↦ Calls n c c' := by
  refine Subrelation.wf (fun {c' c} h ↦ ?_) (measure fun c ↦ 7 * c.left.length + c.rank).wf
  have hrank := c'.rank_le
  show 7 * c'.left.length + c'.rank < 7 * c.left.length + c.rank
  obtain hlt | ⟨hle, hlt⟩ := h.length_lt_or
  · omega
  · omega

/-! ### What calls rely on -/

theorem ne_nil_of_endsClause {s : Bytes} (h : endsClause s = false) : s ≠ [] := by
  rintro rfl
  cases h

/-- Where a clause begins that is neither a phrase nor a group, a word begins. -/
theorem takeWhile_isWordByte_ne_nil {s : Bytes} (htrim : Bytes.trimLeft s = s)
    (hmore : endsClause s = false) (hquote : s.head? ≠ some 34) (hopen : s.head? ≠ some 40) :
    s.takeWhile isWordByte ≠ [] := by
  cases s with
  | nil => cases hmore
  | cons b s =>
    have hspace : Bytes.isSpace b = false := trimLeft_eq_self_iff.1 htrim
    have hends : b ≠ 124 ∧ b ≠ 41 := by simpa [endsClause] using hmore
    have hword : isWordByte b = true := by
      simp_all [isWordByte]
    rw [List.takeWhile_cons_of_pos hword]
    exact List.cons_ne_nil b _

/-- **What a call relies on, those that it makes can rely on.** -/
theorem Calls.isReady (h : Calls n c c') (hc : c.IsReady) : c'.IsReady := by
  cases h with
  | alternatives | conjunction | primary => exact hc
  | next _ _ hmore => exact ⟨trimLeft_trimLeft _, ne_nil_of_endsClause hmore⟩
  | clauses | more | quotation => trivial
  | clause hmore => exact ⟨trimLeft_trimLeft _, hmore⟩
  | operand hmore hspace => exact ⟨trimLeft_eq_self_iff.2 hspace, hmore⟩
  | group _ hne => exact ⟨trimLeft_trimLeft _, hne⟩
  | lexeme hquote hopen => exact takeWhile_isWordByte_ne_nil hc.1 hc.2 hquote hopen

end Step

/-! ### The calls of a text -/

/-- A call is made when a text is read. -/
def IsMade (text : Bytes) (c : Call) : Prop :=
  Bytes.trimLeft text ≠ [] ∧
    Relation.ReflTransGen (Calls text.length) (.disjunction (Bytes.trimLeft text)) c

variable {text : Bytes} {c : Call}

/-- All calls find what they rely on. -/
theorem IsMade.isReady (h : IsMade text c) : c.IsReady := by
  obtain ⟨hne, hmade⟩ := h
  induction hmade with
  | refl => exact ⟨trimLeft_trimLeft text, hne⟩
  | tail _ hcall ih => exact hcall.isReady ih

/-- A word is read down to its bytes. -/
example : IsMade (utf8 "a") (.lexeme (utf8 "a")) := by
  refine ⟨by decide, ?_⟩
  have hconjunction := Relation.ReflTransGen.refl.tail (Calls.alternatives _) |>.tail
    (Calls.conjunction (n := 1) (utf8 "a"))
  have hclause := hconjunction.tail (.clauses rfl) |>.tail (.clause rfl)
  exact hclause.tail (.primary (by decide)) |>.tail (.lexeme (by decide) (by decide))

end Concordance.Query.Parser
