import Concordance.Proofs.LowerCase
import Concordance.Text.Orthography
import Concordance.Text.Word

/-!
# The scripts that are known

The orthography that the program runs with. It goes by the tables of character classes and of lower
case, so it knows the Latin, Cyrillic and Deseret scripts; what it says of other characters is no
more than a guess. Nothing that is proved of analysis depends on it, save that an orthography with
the promised laws exists.

Segments are found among characters, and a boundary is a place among bytes. So the characters of a
text are first told by the places at which they end (`Utf8.stopsFrom`).
-/

namespace Concordance

namespace Utf8

/-! ### Where characters end -/

/-- Whether a byte does not continue the character that is pending. -/
def breaks (pending : Option Pending) (b : UInt8) : Bool :=
  pending.any fun p ↦ !decide (p.low ≤ b ∧ b ≤ p.high)

/-- The places at which the characters of a text and its ill-formed pieces end, when `place` bytes
have been read before and a character may be pending. -/
def stopsFrom (pending : Option Pending) (place : Nat) : Bytes → List Nat
  | [] => if pending.isSome then [place] else []
  | b :: s =>
    let ended := (step pending b).1.length - (breaks pending b).toNat
    let stops :=
      List.replicate ended (place + 1) ++ stopsFrom (step pending b).2 (place + 1) s
    -- a character that the byte breaks has ended before it
    if breaks pending b then place :: stops else stops

/-- A byte completes a character or leaves one pending, when the character that it breaks is not
counted. -/
theorem length_step (pending : Option Pending) (b : UInt8) :
    (step pending b).1.length - (breaks pending b).toNat = 1 ∧ (step pending b).2.isSome = false ∨
      (step pending b).1.length - (breaks pending b).toNat = 0 ∧
        (step pending b).2.isSome = true := by
  rcases pending with _ | p
  · exact length_begin b
  · by_cases hin : p.low ≤ b ∧ b ≤ p.high
    · have hbreaks : breaks (some p) b = false := by
        rw [breaks, Option.any_some, decide_eq_true hin, Bool.not_true]
      rw [hbreaks, step, if_pos hin]
      dsimp only
      split
      · exact .inl ⟨rfl, rfl⟩
      · exact .inr ⟨rfl, rfl⟩
    · have hbreaks : breaks (some p) b = true := by
        rw [breaks, Option.any_some, decide_eq_false hin, Bool.not_false]
      rw [hbreaks, step, if_neg hin]
      exact length_begin b

/-- **Characters end one behind the other**, the first of them behind `place`, or at it if it has
begun before, and none behind the end of the text. -/
theorem stopsFrom_ascending (pending : Option Pending) (place : Nat) (s : Bytes) :
    (stopsFrom pending place s).Pairwise (· < ·) ∧
      ∀ stop ∈ stopsFrom pending place s,
        place < stop + pending.isSome.toNat ∧ stop ≤ place + s.length := by
  induction s generalizing pending place with
  | nil =>
    rcases pending with _ | p
    · exact ⟨.nil, List.forall_mem_nil _⟩
    · exact ⟨List.pairwise_singleton _ _,
        List.forall_mem_singleton.2 ⟨Nat.lt_succ_self _, Nat.le_refl _⟩⟩
  | cons b s ih =>
    obtain ⟨hrest, hbounds⟩ := ih (step pending b).2 (place + 1)
    -- the stops after the byte, with the one at it if it completes a character
    have hstops : ∀ ended, (ended = 1 ∧ (step pending b).2.isSome = false ∨
        ended = 0 ∧ (step pending b).2.isSome = true) →
        (List.replicate ended (place + 1) ++ stopsFrom (step pending b).2 (place + 1) s).Pairwise
          (· < ·) ∧
        ∀ stop ∈ List.replicate ended (place + 1) ++ stopsFrom (step pending b).2 (place + 1) s,
          place < stop ∧ stop ≤ place + (b :: s).length := by
      rw [List.length_cons]
      rintro ended (⟨rfl, hnone⟩ | ⟨rfl, hsome⟩)
      · rw [hnone] at hbounds
        refine ⟨List.pairwise_cons.2 ⟨fun stop hstop ↦ (hbounds stop hstop).1, hrest⟩,
          List.forall_mem_cons.2 ⟨by omega, fun stop hstop ↦ ?_⟩⟩
        have hbound := hbounds stop hstop
        simp only [Bool.toNat_false] at hbound
        omega
      · rw [hsome] at hbounds
        refine ⟨hrest, fun stop hstop ↦ ?_⟩
        have hbound := hbounds stop hstop
        simp only [Bool.toNat_true] at hbound
        omega
    obtain ⟨hascending, hin⟩ := hstops _ (length_step pending b)
    rw [stopsFrom]
    split
    · rename_i hbreaks
      obtain ⟨p, rfl⟩ : ∃ p, pending = some p :=
        Option.ne_none_iff_exists'.1 fun hnone ↦ by rw [hnone] at hbreaks; cases hbreaks
      refine ⟨List.pairwise_cons.2 ⟨fun stop hstop ↦ (hin stop hstop).1, hascending⟩,
        List.forall_mem_cons.2 ⟨⟨Nat.lt_succ_self _, by omega⟩, fun stop hstop ↦ ?_⟩⟩
      exact ⟨Nat.lt_succ_of_lt (hin stop hstop).1, (hin stop hstop).2⟩
    · exact ⟨hascending, fun stop hstop ↦
        ⟨Nat.lt_of_lt_of_le (hin stop hstop).1 (Nat.le_add_right _ _), (hin stop hstop).2⟩⟩

end Utf8

/-! ### Boundaries -/

/-- The boundaries behind given segments, whose characters end at the given places. -/
def boundariesAt : List (List Char) → List Nat → List Boundary
  | [], _ => []
  | segment :: later, stops =>
    match stops.drop (segment.length - 1) with
    | [] => []
    | stop :: rest => ⟨stop, isWord segment⟩ :: boundariesAt later rest

/-- Boundaries are where characters end. -/
theorem boundariesAt_sublist (segments : List (List Char)) (stops : List Nat) :
    ((boundariesAt segments stops).map (·.stop)).Sublist stops := by
  induction segments generalizing stops with
  | nil => exact List.nil_sublist stops
  | cons segment later ih =>
    rw [boundariesAt]
    split
    · exact List.nil_sublist stops
    · rename_i stop rest hdrop
      exact ((ih rest).cons_cons stop).trans (hdrop ▸ List.drop_sublist _ stops)

/-- A boundary closes a word if the segment before it is one. -/
theorem exists_of_mem_boundariesAt {segments : List (List Char)} {stops : List Nat} {b : Boundary}
    (h : b ∈ boundariesAt segments stops) :
    ∃ segment ∈ segments, b.closesWord = isWord segment := by
  induction segments generalizing stops with
  | nil => cases h
  | cons segment later ih =>
    rw [boundariesAt] at h
    split at h
    · cases h
    · rcases List.mem_cons.1 h with rfl | h
      · exact ⟨segment, List.mem_cons_self, rfl⟩
      · obtain ⟨segment', hmem, heq⟩ := ih h
        exact ⟨segment', List.mem_cons_of_mem segment hmem, heq⟩

/-- The boundaries of a text. Places that do not fit into 32 bits are left out. -/
def tableBoundaries (text : Bytes) : List Boundary :=
  boundariesAt (segments (Utf8.decodeLossy text))
    ((Utf8.stopsFrom none 0 text).filter (· < 0x80000000))

/-- The lower case of a string, unless that is too long to be kept. -/
def tableLower (s : List Char) : List Char :=
  let small := s.flatMap lowerCase
  if (encode small).length < 0x80000000 then small else []


/-! ### The laws -/

theorem tableBoundaries_ascending (text : Bytes) :
    (tableBoundaries text).Pairwise (·.stop < ·.stop) := by
  have hstops : (Utf8.stopsFrom none 0 text).Pairwise (· < ·) :=
    (Utf8.stopsFrom_ascending none 0 text).1
  exact List.pairwise_map.1 ((hstops.filter _).sublist (boundariesAt_sublist _ _))

theorem tableBoundaries_inside (text : Bytes) :
    ∀ b ∈ tableBoundaries text, 0 < b.stop ∧ b.stop ≤ text.length ∧ b.stop < 0x80000000 := by
  intro b hb
  have hmem := (boundariesAt_sublist _ _).subset (List.mem_map_of_mem hb)
  obtain ⟨hstop, hlt⟩ := List.mem_filter.1 hmem
  obtain ⟨hpos, hle⟩ := (Utf8.stopsFrom_ascending none 0 text).2 b.stop hstop
  exact ⟨hpos, Nat.zero_add text.length ▸ hle, of_decide_eq_true hlt⟩

/-- White space is no part of a word. -/
theorem class_of_isSpace {b : UInt8} (h : Bytes.isSpace b = true) :
    b.toNat < 0x80 ∧ (WordClass.ofChar (Char.ofNat b.toNat)).isAlphanumeric = false ∧
      (WordClass.ofChar (Char.ofNat b.toNat) == .connector) = false := by
  have hb : b = 32 ∨ b = 9 ∨ b = 10 ∨ b = 11 ∨ b = 12 ∨ b = 13 := by
    simp only [Bytes.isSpace, Bool.or_eq_true, Bool.and_eq_true, beq_iff_eq, decide_eq_true_eq,
      UInt8.le_iff_toNat_le, ← UInt8.toNat_inj] at h ⊢
    simp only [UInt8.reduceToNat] at h ⊢
    omega
  rcases hb with rfl | rfl | rfl | rfl | rfl | rfl <;> decide

theorem tableBoundaries_blank (text : Bytes) (h : ∀ b ∈ text, Bytes.isSpace b = true) :
    ∀ b ∈ tableBoundaries text, b.closesWord = false := by
  intro b hb
  obtain ⟨segment, hsegment, heq⟩ := exists_of_mem_boundariesAt hb
  have hclass : ∀ c ∈ Utf8.decodeLossy text, (WordClass.ofChar c).isAlphanumeric = false ∧
      (WordClass.ofChar c == .connector) = false := by
    rw [Utf8.decodeLossy_of_ascii fun b hb ↦ (class_of_isSpace (h b hb)).1, List.forall_mem_map]
    exact fun b hb ↦ (class_of_isSpace (h b hb)).2
  -- the characters of a segment are those of the text
  have hmem : ∀ c ∈ segment, c ∈ Utf8.decodeLossy text := by
    intro c hc
    rw [← flatten_segments (Utf8.decodeLossy text)]
    exact List.mem_flatten_of_mem hsegment hc
  have hany : (segment.any fun c ↦ (WordClass.ofChar c).isAlphanumeric) = false :=
    List.any_eq_false.2 fun c hc ↦ by simp [(hclass c (hmem c hc)).1]
  have hcount : (segment.countP fun c ↦ WordClass.ofChar c == .connector) = 0 :=
    List.countP_eq_zero.2 fun c hc ↦ by simp [(hclass c (hmem c hc)).2]
  rw [heq, isWord, hany, hcount]
  decide

theorem tableLower_settled (s t : List Char) (h : t.Sublist (tableLower s)) : tableLower t = t := by
  rw [tableLower] at h
  split at h
  · rename_i hshort
    have hself : t.flatMap lowerCase = t := flatMap_lowerCase fun c hc ↦ by
      obtain ⟨d, -, hd⟩ := List.mem_flatMap.1 (h.subset hc)
      exact lowerCase_of_mem hd
    rw [tableLower, hself]
    exact if_pos (Nat.lt_of_le_of_lt (Utf8.length_encode_le h) hshort)
  · rw [List.sublist_nil.1 h]
    rfl

theorem tableLower_short (s : List Char) : (encode (tableLower s)).length < 0x80000000 := by
  rw [tableLower]
  split
  · assumption
  · decide

/-- The orthography of the tables. -/
instance tableOrthography : Orthography where
  boundaries := tableBoundaries
  lower := tableLower
  isAlphanumeric c := (WordClass.ofChar c).isAlphanumeric
  isMark c := WordClass.ofChar c == .mark
  ascending := tableBoundaries_ascending
  inside := tableBoundaries_inside
  blank := tableBoundaries_blank
  settled := tableLower_settled
  short s _ := tableLower_short s

end Concordance
