import Concordance.Index.Basic
import Concordance.Proofs.Dict
import Mathlib.Data.List.TakeWhile

/-!
# Terms by their beginning

The terms that begin with given bytes are found without going through all terms: they are one run in
the order of terms, because a term between two others that begin so begins so as well
(`isPrefix_of_lt`). What stands before that run is smaller than the given bytes and what stands
behind it is greater (`termsBeginning_isRun`), so nothing is missed by beginning at the place of
these bytes and ending where they are no beginning any more.
-/

namespace Concordance

namespace Bytes

/-- A byte string is not smaller than what it begins with. -/
theorem not_lt_of_isPrefix {start s : Bytes} (h : start <+: s) : ¬ s < start := by
  obtain ⟨rest, rfl⟩ := h
  induction start with
  | nil => exact List.not_lt_nil _
  | cons b start ih =>
    intro hlt
    rcases List.cons_lt_cons_iff.1 hlt with hb | ⟨-, hlt⟩
    · exact absurd hb (UInt8.lt_irrefl b)
    · exact ih hlt

/-- **What lies between two strings with one beginning has it too.** -/
theorem isPrefix_of_lt {start s t : Bytes} (hs : ¬ s < start) (hlt : s < t) (ht : start <+: t) :
    start <+: s := by
  induction start generalizing s t with
  | nil => exact List.nil_prefix
  | cons b start ih =>
    obtain ⟨rest, rfl⟩ := ht
    cases s with
    | nil => exact absurd (List.nil_lt_cons b start) hs
    | cons b' s =>
      -- the first byte can be neither smaller nor greater
      have hb : b' = b := by
        rcases List.cons_lt_cons_iff.1 hlt with hb | ⟨hb, -⟩
        · exact absurd (List.cons_lt_cons_iff.2 (.inl hb)) hs
        · exact hb
      subst hb
      have hs' : ¬ s < start := fun h ↦ hs (List.cons_lt_cons_iff.2 (.inr ⟨rfl, h⟩))
      have hlt' : s < start ++ rest := by
        rcases List.cons_lt_cons_iff.1 hlt with hb | ⟨-, h⟩
        · exact absurd hb (UInt8.lt_irrefl _)
        · exact h
      exact List.cons_prefix_cons.2 ⟨rfl, ih hs' hlt' ⟨rest, rfl⟩⟩

/-- From its place on, the strings with a beginning come before all others. -/
theorem mem_takeWhile {start s : Bytes} {l : List Bytes} (hge : ∀ t ∈ l, ¬ t < start)
    (h : l.Pairwise (· < ·)) : s ∈ l.takeWhile (start.isPrefixOf ·) ↔ s ∈ l ∧ start <+: s := by
  induction l with
  | nil => simp
  | cons t l ih =>
    obtain ⟨ht, hl⟩ := List.pairwise_cons.1 h
    obtain ⟨hget, hge⟩ := List.forall_mem_cons.1 hge
    by_cases hp : start <+: t
    · rw [List.takeWhile_cons_of_pos (by simpa using hp), List.mem_cons, List.mem_cons, ih hge hl]
      constructor
      · rintro (rfl | hs)
        · exact ⟨.inl rfl, hp⟩
        · exact ⟨.inr hs.1, hs.2⟩
      · rintro ⟨rfl | hs, hpre⟩
        · exact .inl rfl
        · exact .inr ⟨hs, hpre⟩
    · rw [List.takeWhile_cons_of_neg (by simpa using hp)]
      refine ⟨fun hs ↦ absurd hs List.not_mem_nil, fun ⟨hs, hpre⟩ ↦ absurd ?_ hp⟩
      rcases List.mem_cons.1 hs with rfl | hs
      · exact hpre
      · exact isPrefix_of_lt hget (ht s hs) hpre

/-- What an ascending list has from the place of some bytes on is not smaller than they are. -/
theorem not_lt_of_mem_dropWhile {start s : Bytes} {l : List Bytes} (h : l.Pairwise (· < ·))
    (hs : s ∈ l.dropWhile (· < start)) : ¬ s < start := by
  induction l with
  | nil => exact absurd hs List.not_mem_nil
  | cons t l ih =>
    obtain ⟨ht, hl⟩ := List.pairwise_cons.1 h
    by_cases hlt : t < start
    · rw [List.dropWhile_cons_of_pos (by simpa using hlt)] at hs
      exact ih hl hs
    · rw [List.dropWhile_cons_of_neg (by simpa using hlt)] at hs
      rcases List.mem_cons.1 hs with rfl | hs
      · exact hlt
      · exact fun hs' ↦ hlt (lt_trans (ht s hs) hs')

/-- **In an ascending list the strings with a beginning are one run**, at the place of the
beginning. -/
theorem mem_takeWhile_dropWhile {start s : Bytes} {l : List Bytes} (h : l.Pairwise (· < ·)) :
    s ∈ (l.dropWhile (· < start)).takeWhile (start.isPrefixOf ·) ↔ s ∈ l ∧ start <+: s := by
  have hdrop : s ∈ l.dropWhile (· < start) ∧ start <+: s ↔ s ∈ l ∧ start <+: s := by
    refine and_congr_left fun hpre ↦ ⟨fun hs ↦ (List.dropWhile_suffix _).subset hs, fun hs ↦ ?_⟩
    rw [← List.takeWhile_append_dropWhile (p := (· < start)) (l := l)] at hs
    refine (List.mem_append.1 hs).resolve_left fun hs ↦ not_lt_of_isPrefix hpre ?_
    simpa using List.mem_takeWhile_imp hs
  rw [← hdrop]
  exact mem_takeWhile (fun _ ↦ not_lt_of_mem_dropWhile h) (h.sublist (List.dropWhile_sublist _))

end Bytes

namespace Index

/-- **The terms found by their beginning are those that have it.** -/
theorem mem_termsBeginning {ix : Index} {start term : Bytes} :
    term ∈ ix.termsBeginning start ↔ term ∈ ix.terms.keys ∧ start <+: term :=
  Bytes.mem_takeWhile_dropWhile ix.terms.keys_ascending

/-- The terms found are a run of all terms. -/
theorem exists_keys_eq_append (ix : Index) (start : Bytes) :
    ∃ before after, ix.terms.keys = before ++ ix.termsBeginning start ++ after ∧
      (∀ term ∈ before, term < start) ∧ ∀ term ∈ after, ¬ term < start := by
  refine ⟨ix.terms.keys.takeWhile (· < start),
    (ix.terms.keys.dropWhile (· < start)).dropWhile (start.isPrefixOf ·), ?_, fun term hterm ↦ ?_,
    fun term hterm ↦ ?_⟩
  · rw [termsBeginning, List.append_assoc, List.takeWhile_append_dropWhile,
      List.takeWhile_append_dropWhile]
  · simpa using List.mem_takeWhile_imp hterm
  · exact Bytes.not_lt_of_mem_dropWhile ix.terms.keys_ascending
      ((List.dropWhile_suffix _).subset hterm)

/-- **The terms with a beginning** are found in strictly ascending order, none is missed and none
added, whatever the bytes of the beginning are; in the order of all terms they stand between those
that are smaller than the beginning and greater ones. -/
theorem termsBeginning_isRun (ix : Index) (start : Bytes) :
    (ix.termsBeginning start).Pairwise (· < ·) ∧
      (∀ term, term ∈ ix.termsBeginning start ↔ ix.hasTerm term = true ∧ start <+: term) ∧
      ∃ before after, ix.terms.keys = before ++ ix.termsBeginning start ++ after ∧
        (∀ term ∈ before, term < start) ∧ ∀ term ∈ after, start < term := by
  obtain ⟨before, after, hkeys, hbefore, hafter⟩ := exists_keys_eq_append ix start
  have hascending : (before ++ ix.termsBeginning start ++ after).Pairwise (· < ·) :=
    hkeys ▸ ix.terms.keys_ascending
  obtain ⟨hfront, -, hbehind⟩ := List.pairwise_append.1 hascending
  refine ⟨(List.pairwise_append.1 hfront).2.1, fun term ↦ ?_, before, after, hkeys, hbefore,
    fun term hterm ↦ ?_⟩
  · rw [mem_termsBeginning, hasTerm, Dict.contains_iff]
  · -- a term behind the run that had the beginning would be in it as well
    refine Bytes.lt_of_not_lt_of_ne (hafter term hterm) ?_
    rintro rfl
    have hmem : term ∈ ix.terms.keys := hkeys ▸ List.mem_append_right _ hterm
    have hfound : term ∈ ix.termsBeginning term := mem_termsBeginning.2 ⟨hmem, List.prefix_refl _⟩
    exact Bytes.lt_irrefl _ (hbehind term (List.mem_append_right _ hfound) term hterm)

end Index

end Concordance
