import Concordance.Search.Ranking
import Mathlib.Data.List.Basic

/-!
# A ranking loses nothing

Whatever the scores are, numbers or not, sorting only exchanges matches and puts them in one after
another, so a ranking is a permutation of what was found (`ranked_perm`). Nothing is assumed of the
order here: each stage is described by the row that it starts from.

Nor does sorting look at anything but which match precedes which. If matches are changed but not
their order, each stage makes the same exchanges, so the ranking is changed in the same way
(`ranked_map`).
-/

namespace Concordance.Ranking

/-! ### Exchanges -/

/-- **Every step of the sort only moves matches**, from the swap of two places up to the whole. -/
theorem swapIfInBounds_perm {α : Type} (row : Array α) (i j : Nat) :
    (row.swapIfInBounds i j).Perm row := by
  rw [Array.swapIfInBounds_def]
  split
  · split
    · exact Array.swap_perm _ _
    · exact .rfl
  · exact .rfl

/-- Splitting a row at a pivot moves them. -/
theorem split_perm (row : Array Match) (pivot : Match) (first last : Nat) :
    (split row pivot first last).1.Perm row := by
  fun_induction split row pivot first last with
  | case1 row first last i j hij ih => exact ih.trans (swapIfInBounds_perm row i j)
  | case2 => exact .rfl

theorem sink_perm (row : Array Match) (base size i : Nat) :
    (sink row base size i).1.Perm row := by
  fun_induction sink row base size i with
  | case1 row i below hlt hbefore ih => exact ih.trans (swapIfInBounds_perm row _ _)
  | case2 row i below hlt hbefore ih => exact ih.trans (swapIfInBounds_perm row _ _)
  | case3 row i below hlt heq => exact swapIfInBounds_perm row _ _
  | case4 => exact .rfl

theorem rise_perm (row : Array Match) (base top i : Nat) : (rise row base top i).Perm row := by
  fun_induction rise row base top i with
  | case1 row i hlt parent hbefore ih => exact ih.trans (swapIfInBounds_perm row _ _)
  | case2 => exact .rfl
  | case3 => exact .rfl

theorem settle_perm (row : Array Match) (base size i : Nat) :
    (settle row base size i).Perm row :=
  (rise_perm _ base i _).trans (sink_perm row base size i)

theorem heaped_perm (row : Array Match) (base size n : Nat) :
    (heaped row base size n).Perm row := by
  induction n generalizing row with
  | zero => exact .rfl
  | succ n ih => exact (ih _).trans (settle_perm row base size n)

theorem drained_perm (row : Array Match) (base n : Nat) : (drained row base n).Perm row := by
  induction n generalizing row with
  | zero => exact .rfl
  | succ n ih =>
    exact (ih _).trans ((settle_perm _ base n 0).trans (swapIfInBounds_perm row base (base + n)))

/-- So does sorting a row by way of a heap. -/
theorem throughHeap_perm (row : Array Match) (first last : Nat) :
    (throughHeap row first last).Perm row :=
  (drained_perm _ first _).trans (heaped_perm row first _ _)

/-- **Narrowing only exchanges matches.** -/
theorem narrow_perm (row : Array Match) (first last depth : Nat) :
    (narrow row first last depth).Perm row := by
  induction depth generalizing row first last with
  | zero =>
    rw [narrow]
    split
    · exact .rfl
    · exact throughHeap_perm row first last
  | succ depth ih =>
    rw [narrow]
    split
    · exact .rfl
    · have hswap := swapIfInBounds_perm row first
        (middle row (first + 1) (first + (last - first) / 2) (last - 1))
      simp only
      split
      · exact hswap
      · exact (ih _ _ _).trans ((ih _ _ _).trans ((split_perm _ _ _ _).trans hswap))

/-! ### Putting in -/

/-- Putting one match in its place adds it. -/
theorem putIn_perm (m : Match) (behind : Matches) : (putIn m behind).Perm (m :: behind) := by
  induction behind with
  | nil => exact .refl _
  | cons n rest ih =>
    rw [putIn]
    split
    · exact (ih.cons n).trans (.swap m n rest)
    · exact .refl _

theorem putFirst_perm (m : Match) (behind : Matches) :
    (putFirst m behind).Perm (m :: behind) := by
  rw [putFirst]
  split
  · split
    · exact List.perm_append_singleton m behind
    · exact putIn_perm m behind
  · rename_i heq
    rw [List.getLast?_eq_none_iff.1 heq]

/-- Putting a row in, one match after another, whatever way each is put in. -/
theorem foldl_perm {put : Match → Matches → Matches}
    (hput : ∀ m behind, (put m behind).Perm (m :: behind)) (row start : Matches) :
    (row.foldl (fun behind m ↦ put m behind) start).Perm (row ++ start) := by
  induction row generalizing start with
  | nil => exact .refl _
  | cons m row ih =>
    calc (m :: row).foldl (fun behind m ↦ put m behind) start
        = row.foldl (fun behind m ↦ put m behind) (put m start) := rfl
      List.Perm _ (row ++ put m start) := ih _
      List.Perm _ (row ++ m :: start) := (hput m start).append_left row
      List.Perm _ (m :: row ++ start) := List.perm_middle

end Concordance.Ranking

namespace Concordance

/-- A ranking is what putting in a permutation of the matches comes to. -/
theorem Matches.exists_ranked_eq (ms : Matches) : ∃ row start : Matches, row.Perm ms ∧
    start = (row.take Ranking.short).foldl (fun behind m ↦ Ranking.putFirst m behind) [] ∧
    (row.drop Ranking.short ++ start).Perm row ∧ ms.ranked =
      ((row.drop Ranking.short).foldl (fun behind m ↦ Ranking.putIn m behind) start).reverse := by
  set row := (Ranking.narrow ms.toArray 0 ms.length (2 * ms.length.log2)).toList
  set start := (row.take Ranking.short).foldl (fun behind m ↦ Ranking.putFirst m behind) []
  have hnarrow : row.Perm ms :=
    Array.perm_iff_toList_perm.1 (Ranking.narrow_perm ms.toArray 0 ms.length _)
  have hfirst : start.Perm (row.take Ranking.short) := by
    simpa using Ranking.foldl_perm Ranking.putFirst_perm (row.take Ranking.short) []
  have hrow : (row.drop Ranking.short ++ start).Perm row :=
    calc List.Perm (row.drop Ranking.short ++ start)
          (row.drop Ranking.short ++ row.take Ranking.short) := hfirst.append_left _
      List.Perm _ (row.take Ranking.short ++ row.drop Ranking.short) := List.perm_append_comm
      _ = row := List.take_append_drop _ _
  exact ⟨row, start, hnarrow, rfl, hrow, rfl⟩

/-- **A ranking has the matches that it was made of.** -/
theorem Matches.ranked_perm (ms : Matches) : ms.ranked.Perm ms := by
  obtain ⟨row, start, hnarrow, -, hrow, hranked⟩ := ms.exists_ranked_eq
  calc ms.ranked
      = ((row.drop Ranking.short).foldl (fun behind m ↦ Ranking.putIn m behind) start).reverse :=
        hranked
    List.Perm _ ((row.drop Ranking.short).foldl (fun behind m ↦ Ranking.putIn m behind) start) :=
        List.reverse_perm _
    List.Perm _ (row.drop Ranking.short ++ start) := Ranking.foldl_perm Ranking.putIn_perm _ _
    List.Perm _ row := hrow
    List.Perm _ ms := hnarrow

end Concordance

/-! ### Only the order counts -/

namespace Concordance.Ranking

/-- An exchange does not look at what is exchanged. -/
theorem swapIfInBounds_map {α β : Type} (f : α → β) (row : Array α) (i j : Nat) :
    (row.map f).swapIfInBounds i j = (row.swapIfInBounds i j).map f := by
  refine Array.ext_getElem? fun k ↦ ?_
  rw [Array.swapIfInBounds_def, Array.swapIfInBounds_def, Array.getElem?_map]
  simp only [Array.size_map]
  split
  · split
    · rw [Array.getElem?_swap, Array.getElem?_swap, Array.getElem_map, Array.getElem_map,
        Array.getElem?_map]
      split
      · rfl
      · split <;> rfl
    · rw [Array.getElem?_map]
  · rw [Array.getElem?_map]

variable {f : Match → Match} (hf : ∀ m n, (f m).precedes (f n) = m.precedes n)

include hf

/-- **A change of matches that the order does not see** is not seen by any step of the sort either,
as two of them compare as before. -/
theorem before_map (row : Array Match) (i j : Nat) :
    before (row.map f) i j = before row i j := by
  rw [before, before, Array.getElem?_map, Array.getElem?_map]
  cases row[i]? with
  | none => rfl
  | some m =>
    cases row[j]? with
    | none => rfl
    | some n => exact hf m n

theorem middle_map (row : Array Match) (a b c : Nat) :
    middle (row.map f) a b c = middle row a b c := by
  simp only [middle, before_map hf]

theorem ascend_map (row : Array Match) (pivot : Match) (i : Nat) :
    ascend (row.map f) (f pivot) i = ascend row pivot i := by
  fun_induction ascend row pivot i with
  | case1 i hi hprecedes ih =>
    rw [ascend, dif_pos (by rwa [Array.size_map]), Array.getElem_map, hf, if_pos hprecedes, ih]
  | case2 i hi hprecedes =>
    rw [ascend, dif_pos (by rwa [Array.size_map]), Array.getElem_map, hf, if_neg hprecedes]
  | case3 i hi => rw [ascend, dif_neg (by rwa [Array.size_map])]

theorem descend_map (row : Array Match) (pivot : Match) (i : Nat) :
    descend (row.map f) (f pivot) i = descend row pivot i := by
  induction i with
  | zero => rfl
  | succ i ih =>
    rw [descend, descend, Array.getElem?_map]
    cases row[i + 1]? with
    | none => rfl
    | some m =>
      show (if (f pivot).precedes (f m) then _ else _) = _
      rw [hf, ih]

/-- A row is split at the same place. -/
theorem split_map (row : Array Match) (pivot : Match) (first last : Nat) :
    split (row.map f) (f pivot) first last =
      ((split row pivot first last).1.map f, (split row pivot first last).2) := by
  fun_induction split row pivot first last with
  | case1 row first last i j hij ih =>
    rw [split, ascend_map hf, descend_map hf, if_pos hij, swapIfInBounds_map, ih]
  | case2 row first last i j hij =>
    rw [split, ascend_map hf, descend_map hf, if_neg hij]

/-- A match sinks to the same place. -/
theorem sink_map (row : Array Match) (base size i : Nat) :
    sink (row.map f) base size i = ((sink row base size i).1.map f, (sink row base size i).2) := by
  fun_induction sink row base size i with
  | case1 row i below hlt hbefore ih =>
    rw [sink, if_pos hlt, before_map hf, if_pos hbefore, swapIfInBounds_map, ih]
  | case2 row i below hlt hbefore ih =>
    rw [sink, if_pos hlt, before_map hf, if_neg hbefore, swapIfInBounds_map, ih]
  | case3 row i below hlt heq => rw [sink, if_neg hlt, if_pos heq, swapIfInBounds_map]
  | case4 row i below hlt hne => rw [sink, if_neg hlt, if_neg hne]

theorem rise_map (row : Array Match) (base top i : Nat) :
    rise (row.map f) base top i = (rise row base top i).map f := by
  fun_induction rise row base top i with
  | case1 row i hlt parent hbefore ih =>
    rw [rise, if_pos hlt]
    simp only
    rw [before_map hf, if_pos hbefore, swapIfInBounds_map, ih]
  | case2 row i hlt parent hbefore =>
    rw [rise, if_pos hlt]
    simp only
    rw [before_map hf, if_neg hbefore]
  | case3 row i hlt => rw [rise, if_neg hlt]

theorem settle_map (row : Array Match) (base size i : Nat) :
    settle (row.map f) base size i = (settle row base size i).map f := by
  rw [settle, sink_map hf]
  exact rise_map hf _ base i _

theorem heaped_map (row : Array Match) (base size n : Nat) :
    heaped (row.map f) base size n = (heaped row base size n).map f := by
  induction n generalizing row with
  | zero => rfl
  | succ n ih => rw [heaped, heaped, settle_map hf, ih]

theorem drained_map (row : Array Match) (base n : Nat) :
    drained (row.map f) base n = (drained row base n).map f := by
  induction n generalizing row with
  | zero => rfl
  | succ n ih => rw [drained, drained, swapIfInBounds_map, settle_map hf, ih]

/-- A heap sorts the row in the same way. -/
theorem throughHeap_map (row : Array Match) (first last : Nat) :
    throughHeap (row.map f) first last = (throughHeap row first last).map f := by
  simp only [throughHeap, heaped_map hf, drained_map hf]

/-- **Narrowing makes the same exchanges.** -/
theorem narrow_map (row : Array Match) (first last depth : Nat) :
    narrow (row.map f) first last depth = (narrow row first last depth).map f := by
  induction depth generalizing row first last with
  | zero =>
    rw [narrow, narrow, throughHeap_map hf]
    split <;> rfl
  | succ depth ih =>
    rw [narrow, narrow]
    simp only [middle_map hf, swapIfInBounds_map, Array.getElem?_map]
    split
    · rfl
    · cases (row.swapIfInBounds first
        (middle row (first + 1) (first + (last - first) / 2) (last - 1)))[first]? with
      | none => rfl
      | some pivot => simp only [Option.map_some, split_map hf, ih]

/-- A match is put in at the same place. -/
theorem putIn_map (m : Match) (behind : Matches) :
    putIn (f m) (behind.map f) = (putIn m behind).map f := by
  induction behind with
  | nil => rfl
  | cons n rest ih =>
    rw [putIn, List.map_cons, putIn, hf, ih]
    split <;> rfl

theorem putFirst_map (m : Match) (behind : Matches) :
    putFirst (f m) (behind.map f) = (putFirst m behind).map f := by
  rw [putFirst, putFirst, List.getLast?_map]
  cases behind.getLast? with
  | none => rfl
  | some first =>
    simp only [Option.map_some, hf, putIn_map hf]
    split
    · rw [List.map_append, List.map_singleton]
    · rfl

omit hf in
/-- Putting a changed row in, one match after another, if each is put in alike. -/
theorem foldl_map {put : Match → Matches → Matches}
    (hput : ∀ m behind, put (f m) (behind.map f) = (put m behind).map f) (row start : Matches) :
    (row.map f).foldl (fun behind m ↦ put m behind) (start.map f) =
      (row.foldl (fun behind m ↦ put m behind) start).map f := by
  induction row generalizing start with
  | nil => rfl
  | cons m row ih => rw [List.map_cons, List.foldl_cons, List.foldl_cons, hput, ih]

end Concordance.Ranking

namespace Concordance

/-- **A ranking looks at nothing but the order.** -/
theorem Matches.ranked_map {f : Match → Match}
    (hf : ∀ m n, (f m).precedes (f n) = m.precedes n) (ms : Matches) :
    Matches.ranked (ms.map f) = (Matches.ranked ms).map f := by
  have hnarrow : ∀ last depth, Ranking.narrow (ms.map f).toArray 0 last depth =
      (Ranking.narrow ms.toArray 0 last depth).map f := fun last depth ↦ by
    rw [← Ranking.narrow_map hf, List.map_toArray]
  have hfirst : ∀ row : Matches, (row.map f).foldl (fun behind m ↦ Ranking.putFirst m behind) [] =
      (row.foldl (fun behind m ↦ Ranking.putFirst m behind) []).map f :=
    fun row ↦ Ranking.foldl_map (Ranking.putFirst_map hf) row []
  simp only [Matches.ranked, hnarrow, Array.toList_map, ← List.map_take, ← List.map_drop, hfirst,
    Ranking.foldl_map (Ranking.putIn_map hf), List.map_reverse, List.length_map]

end Concordance
