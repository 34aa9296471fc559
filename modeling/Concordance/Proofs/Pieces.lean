import Concordance.Proofs.ParserSoundness

/-!
# The pieces of a query text

A tree keeps the leaves of the text that it was read from, as they are written, and the signs of its
negated clauses; each knows its position (`Query.pieces`). What it does not keep are white space,
parentheses and bars. Two relations say how the pieces stand in a text, piece by piece from left to
right, so that they can be put together in the order in which a text is read:

* the pieces cover a text if everything between them is of what is not kept (`Covers`), and
* a text leads to its first leaf if nothing but white space, opening parentheses and signs stands
  before that (`Leads`).

A position is given by what is left of the text, and so are the positions in the two relations. In a
text of the length that they are about they are offsets (`Covers.standsIn`, `Covers.apart`,
`Covers.gap_or_piece`, `Leads.exists_first`).
-/

namespace Concordance.Query

open Grammar Concordance.Query.Parser

/-! ### Pieces -/

/-- A piece of a query text that a tree keeps. -/
inductive Piece where
  /-- The sign of a negated clause. -/
  | sign (position : Nat)
  | leaf (position : Nat) (written : Bytes)
  deriving DecidableEq, Repr

namespace Piece

/-- Where a piece begins. -/
def position : Piece → Nat
  | sign p | leaf p _ => p

/-- A piece as it is written; a sign is a minus. -/
def written : Piece → Bytes
  | sign _ => [45]
  | leaf _ text => text

/-- Where a piece has ended. -/
def stop (p : Piece) : Nat :=
  p.position + p.written.length

def isLeaf : Piece → Bool
  | sign _ => false
  | leaf _ _ => true

/-- A piece stands in a text at its position. -/
def StandsIn (text : Bytes) (p : Piece) : Prop :=
  ∃ before after, text = before ++ (p.written ++ after) ∧ before.length = p.position

/-- A piece ends before another one begins. -/
def Precedes (p q : Piece) : Prop :=
  p.position < q.position ∧ p.stop ≤ q.position

end Piece

mutual

/-- The pieces of a tree from left to right: a word as it is, a wildcard with its star, a phrase in
its quotes, and before a negated clause its sign. -/
def pieces : Query → List Piece
  | word position text => [.leaf position text]
  | wildcard position start => [.leaf position (start ++ [42])]
  | phrase position text _ => [.leaf position (34 :: (text ++ [34]))]
  | neg position operand => .sign position :: operand.pieces
  | conj _ operands | disj _ operands => piecesAll operands

/-- The pieces of several trees, one tree after another. -/
def piecesAll : List Query → List Piece
  | [] => []
  | q :: qs => q.pieces ++ piecesAll qs

end

/-- The leaves of a tree from left to right. -/
def leaves (t : Query) : List Piece :=
  t.pieces.filter Piece.isLeaf

theorem piecesAll_eq_flatMap (qs : List Query) : piecesAll qs = qs.flatMap pieces := by
  induction qs with
  | nil => rfl
  | cons q qs ih => rw [piecesAll, ih, List.flatMap_cons]

/-- The nodes of a tree are the root and the nodes of its operands. -/
theorem isNode_iff {node t : Query} :
    IsNode node t ↔ node = t ∨ ∃ q ∈ t.operands, IsNode node q := by
  constructor
  · intro h
    cases h with
    | root => exact .inl rfl
    | operand hq h => exact .inr ⟨_, hq, h⟩
  · rintro (rfl | ⟨q, hq, h⟩)
    · exact .root node
    · exact .operand hq h

/-- The signs of a tree are those of its negated clauses. -/
theorem sign_mem_pieces_iff {position : Nat} {t : Query} :
    .sign position ∈ t.pieces ↔ ∃ operand, IsNode (neg position operand) t := by
  induction t using induct with
  | h t ih =>
    -- a tree without a sign of its own has those of its operands
    have hbelow : (∀ operand, neg position operand ≠ t) →
        ((∃ q ∈ t.operands, .sign position ∈ q.pieces) ↔
          ∃ operand, IsNode (neg position operand) t) := by
      intro hroot
      constructor
      · rintro ⟨q, hq, hsign⟩
        obtain ⟨operand, h⟩ := (ih q hq).1 hsign
        exact ⟨operand, .operand hq h⟩
      · rintro ⟨operand, h⟩
        obtain heq | ⟨q, hq, h⟩ := isNode_iff.1 h
        · exact absurd heq (hroot operand)
        · exact ⟨q, hq, (ih q hq).2 ⟨operand, h⟩⟩
    cases t with
    | neg p operand =>
      rw [pieces, List.mem_cons, Piece.sign.injEq]
      by_cases hp : position = p
      · exact iff_of_true (.inl hp) ⟨operand, hp ▸ .root _⟩
      · rw [or_iff_right hp, ← hbelow fun _ heq ↦ hp (neg.inj heq).1]
        simp [operands]
    | conj p qs =>
      rw [pieces, piecesAll_eq_flatMap, List.mem_flatMap, ← hbelow (by simp)]
      rfl
    | disj p qs =>
      rw [pieces, piecesAll_eq_flatMap, List.mem_flatMap, ← hbelow (by simp)]
      rfl
    | _ =>
      rw [← hbelow (by simp)]
      simp [pieces, operands]

/-! ### What is not kept -/

/-- White space, a parenthesis or a bar. -/
def IsGap (b : UInt8) : Prop :=
  Bytes.isSpace b = true ∨ b = 40 ∨ b = 41 ∨ b = 124

/-- White space, an opening parenthesis or a sign. -/
def IsLead (b : UInt8) : Prop :=
  Bytes.isSpace b = true ∨ b = 40 ∨ b = 45

/-- Pieces cover a text of which `rest` is left: each stands at its position, and what stands
before, between and behind them is not kept. -/
inductive Covers (n : Nat) : Bytes → List Piece → Bytes → Prop
  | done (s : Bytes) : Covers n s [] s
  | gap {b : UInt8} {s rest : Bytes} {ps : List Piece} (hb : IsGap b) (h : Covers n s ps rest) :
      Covers n (b :: s) ps rest
  | piece {p : Piece} {s rest : Bytes} {ps : List Piece} (hne : p.written ≠ [])
      (hp : p.position = offset n (p.written ++ s)) (h : Covers n s ps rest) :
      Covers n (p.written ++ s) (p :: ps) rest

/-- A text leads to the first leaf of some pieces. -/
inductive Leads (n : Nat) : Bytes → List Piece → Prop
  | leaf {written s : Bytes} {ps : List Piece} :
      Leads n (written ++ s) (.leaf (offset n (written ++ s)) written :: ps)
  | sign {s : Bytes} {ps : List Piece} (h : Leads n s ps) :
      Leads n (45 :: s) (.sign (offset n (45 :: s)) :: ps)
  | skip {b : UInt8} {s : Bytes} {ps : List Piece} (hb : Bytes.isSpace b = true ∨ b = 40)
      (h : Leads n s ps) : Leads n (b :: s) ps

section Parts

variable {n : Nat} {s t rest : Bytes} {ps qs : List Piece}

/-- **Pieces that cover one part and pieces that cover the next cover both.** -/
theorem Covers.append (h : Covers n s ps t) (h' : Covers n t qs rest) :
    Covers n s (ps ++ qs) rest := by
  induction h with
  | done => exact h'
  | gap hb _ ih => exact .gap hb (ih h')
  | piece hne hp _ ih => exact .piece hne hp (ih h')

/-- What is left is an end of the text. -/
theorem Covers.suffix (h : Covers n s ps rest) : rest <:+ s := by
  induction h with
  | done s => exact List.suffix_rfl
  | gap _ _ ih => exact ih.trans (List.suffix_cons _ _)
  | piece _ _ _ ih => exact ih.trans (List.suffix_append _ _)

/-- Gaps need no pieces. -/
theorem covers_gaps {gaps : Bytes} (h : ∀ b ∈ gaps, IsGap b) (s : Bytes) :
    Covers n (gaps ++ s) [] s := by
  induction gaps with
  | nil => exact .done s
  | cons b gaps ih =>
    obtain ⟨hb, hgaps⟩ := List.forall_mem_cons.1 h
    exact .gap hb (ih hgaps)

theorem covers_trimLeft (n : Nat) (s : Bytes) : Covers n s [] (Bytes.trimLeft s) := by
  obtain ⟨blank, hblank, hs⟩ := exists_blank s
  have hcovers : Covers n (blank ++ Bytes.trimLeft s) [] (Bytes.trimLeft s) :=
    covers_gaps (fun b hb ↦ .inl (hblank b hb)) _
  rwa [← hs] at hcovers

theorem Leads.append (h : Leads n s ps) (qs : List Piece) : Leads n s (ps ++ qs) := by
  induction h with
  | leaf => exact .leaf
  | sign _ ih => exact .sign ih
  | skip hb _ ih => exact .skip hb ih

theorem Leads.of_trimLeft (h : Leads n (Bytes.trimLeft s) ps) : Leads n s ps := by
  obtain ⟨blank, hblank, hs⟩ := exists_blank s
  rw [hs]
  generalize Bytes.trimLeft s = t at *
  clear hs
  induction blank with
  | nil => exact h
  | cons b blank ih =>
    obtain ⟨hb, hblank⟩ := List.forall_mem_cons.1 hblank
    exact .skip (.inl hb) (ih hblank)

end Parts

/-! ### Positions as offsets -/

/-- The offset of what is left is the length of what is before it. -/
theorem offset_append (before s : Bytes) : offset (before ++ s).length s = before.length := by
  rw [offset, List.length_append, Nat.add_sub_cancel]

section Offsets

variable {text s : Bytes} {ps : List Piece}

/-- At an offset stands what is left there. -/
theorem getElem?_offset (hs : s <:+ text) : text[offset text.length s]? = s.head? := by
  obtain ⟨before, rfl⟩ := hs
  rw [offset_append, List.getElem?_append_right (Nat.le_refl _), Nat.sub_self,
    ← List.head?_eq_getElem?]

/-- Behind a part of the text the offset is larger by the length of the part. -/
theorem offset_add_length (part : Bytes) (h : part ++ s <:+ text) :
    offset text.length (part ++ s) + part.length = offset text.length s := by
  have hle := h.length_le
  rw [List.length_append] at hle
  simp only [offset, List.length_append]
  omega

/-- Pieces that cover a part of a text stand in the text. -/
theorem Covers.standsIn {rest : Bytes} (h : Covers text.length s ps rest) (hs : s <:+ text) :
    ∀ p ∈ ps, p.StandsIn text := by
  induction h with
  | done => exact List.forall_mem_nil _
  | gap _ _ ih => exact ih ((List.suffix_cons _ _).trans hs)
  | @piece p s rest ps hne hp h ih =>
    refine List.forall_mem_cons.2 ⟨?_, ih ((List.suffix_append _ _).trans hs)⟩
    obtain ⟨before, rfl⟩ := hs
    exact ⟨before, s, rfl, (hp.trans (offset_append ..)).symm⟩

/-- No piece begins before the text that it is in. -/
theorem Covers.le_position {n : Nat} {rest : Bytes} (h : Covers n s ps rest) :
    ∀ p ∈ ps, offset n s ≤ p.position := by
  induction h with
  | done => exact List.forall_mem_nil _
  | @gap b s rest ps hb h ih =>
    intro p hp
    have hle := ih p hp
    simp only [offset, List.length_cons] at hle ⊢
    omega
  | @piece p s rest ps hne hp h ih =>
    refine List.forall_mem_cons.2 ⟨Nat.le_of_eq hp.symm, fun q hq ↦ ?_⟩
    have hle := ih q hq
    simp only [offset, List.length_append] at hle ⊢
    omega

/-- **Pieces stand apart**, one after another. -/
theorem Covers.apart {n : Nat} {rest : Bytes} (h : Covers n s ps rest) (hs : s.length ≤ n) :
    ps.Pairwise Piece.Precedes := by
  induction h with
  | done => exact .nil
  | gap _ _ ih => exact ih (Nat.le_of_succ_le hs)
  | @piece p s rest ps hne hp h ih =>
    rw [List.length_append] at hs
    refine .cons (fun q hq ↦ ?_) (ih (by omega))
    have hle := h.le_position q hq
    have hpos := List.length_pos_iff.2 hne
    simp only [offset, List.length_append] at hle hp
    rw [Piece.Precedes, Piece.stop]
    omega

/-- **Every byte of a text that pieces cover** is of what is not kept, or in one of the pieces. -/
theorem Covers.gap_or_piece (h : Covers text.length s ps []) (hs : s <:+ text) {i : Nat} {b : UInt8}
    (hb : text[i]? = some b) (hi : offset text.length s ≤ i) :
    IsGap b ∨ ∃ p ∈ ps, p.position ≤ i ∧ i < p.stop := by
  generalize hrest : ([] : Bytes) = rest at h
  induction h with
  | done s =>
    -- nothing is left, so there is no byte
    have hlt := (List.getElem?_eq_some_iff.1 hb).1
    rw [← hrest, offset, List.length_nil] at hi
    omega
  | @gap c s rest ps hc h ih =>
    by_cases heq : offset text.length (c :: s) = i
    · rw [← heq, getElem?_offset hs] at hb
      rw [← Option.some.inj hb]
      exact .inl hc
    · have hnext : offset text.length (c :: s) + 1 = offset text.length s :=
        offset_add_length [c] hs
      exact ih ((List.suffix_cons _ _).trans hs) (by omega) hrest
  | @piece p s rest ps hne hp h ih =>
    by_cases hlt : i < p.stop
    · exact .inr ⟨p, List.mem_cons_self, hp ▸ hi, hlt⟩
    · rw [Piece.stop, hp, offset_add_length _ hs] at hlt
      have hi : offset text.length s ≤ i := Nat.not_lt.1 hlt
      obtain hgap | ⟨q, hq, hin⟩ := ih ((List.suffix_append _ _).trans hs) hi hrest
      · exact .inl hgap
      · exact .inr ⟨q, List.mem_cons_of_mem p hq, hin⟩

/-- **A text that leads to a leaf**: there is one, and before it nothing but white space, opening
parentheses and signs. -/
theorem Leads.exists_first (h : Leads text.length s ps) (hs : s <:+ text) :
    ∃ first, (ps.filter Piece.isLeaf).head? = some first ∧ offset text.length s ≤ first.position ∧
      ∀ i b, offset text.length s ≤ i → i < first.position → text[i]? = some b → IsLead b := by
  -- one more byte in front
  have hstep : ∀ {b s} {first : Piece}, b :: s <:+ text → IsLead b →
      offset text.length s ≤ first.position →
      (∀ i b, offset text.length s ≤ i → i < first.position → text[i]? = some b → IsLead b) →
      offset text.length (b :: s) ≤ first.position ∧
        ∀ i c, offset text.length (b :: s) ≤ i → i < first.position → text[i]? = some c →
          IsLead c := by
    intro b s first hs hb hle hbetween
    have hnext : offset text.length (b :: s) + 1 = offset text.length s :=
      offset_add_length [b] hs
    refine ⟨by omega, fun i c hi hlt hc ↦ ?_⟩
    by_cases heq : offset text.length (b :: s) = i
    · rw [← heq, getElem?_offset hs] at hc
      rwa [← Option.some.inj hc]
    · exact hbetween i c (by omega) hlt hc
  induction h with
  | leaf => exact ⟨_, rfl, Nat.le_refl _, fun i b hi hlt ↦ absurd hi (Nat.not_le.2 hlt)⟩
  | @sign s ps h ih =>
    obtain ⟨first, hfirst, hle, hbetween⟩ := ih ((List.suffix_cons _ _).trans hs)
    exact ⟨first, hfirst, hstep hs (.inr (.inr rfl)) hle hbetween⟩
  | @skip b s ps hb h ih =>
    obtain ⟨first, hfirst, hle, hbetween⟩ := ih ((List.suffix_cons _ _).trans hs)
    exact ⟨first, hfirst, hstep hs (hb.imp_right .inl) hle hbetween⟩

end Offsets

end Concordance.Query
