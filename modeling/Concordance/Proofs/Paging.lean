import Concordance.Engine
import Concordance.Proofs.Alike
import Concordance.Proofs.Numbers
import Concordance.Proofs.Ranking
import Concordance.Text.Table

/-!
# Pages of a ranking

A page is a window of the ranking: what comes after the offset, as far as the limit reaches
(`page_eq`). The end of the window is found with words of 64 bits, and a window that would end
beyond them is refused; up to there, pages of equal limit put one after another are the ranking
itself (`search_window`).

The offset and the limit have no part in finding and ranking the matches, so the ranking is the same
for all pages.
-/

namespace Concordance

/-- The options of a search for the page with the given number. -/
def SearchOptions.atPage (o : SearchOptions) (k : Nat) : SearchOptions :=
  { o with offset := (k * o.limit.toNat).toUInt64 }

/-! ### Every page has the same ranking -/

namespace Searcher

/-- **Finding the matches of a query does not look at the offset.** -/
theorem alike_offset (s : Searcher) (o : SearchOptions) (n : UInt64) (q : Query) :
    s.Alike o { o with offset := n } q q := by
  have hcheck : checkpoint { o with offset := n } = checkpoint o := rfl
  induction q using Query.induct with
  | h t ih =>
    cases t with
    | neg position operand =>
      exact (ih operand (List.mem_singleton_self _)).neg hcheck position
    | conj position qs => exact .conj hcheck position (List.forall₂_same.2 ih)
    | disj position qs => exact .disj hcheck position (List.forall₂_same.2 ih)
    | _ =>
      refine .of_whole rfl rfl ?_
      rw [matches?, matches?]
      rfl

theorem evaluate_offset (s : Searcher) (o : SearchOptions) (n : UInt64) (q : Query) :
    s.evaluate { o with offset := n } q = s.evaluate o q :=
  (s.alike_offset o n q).evaluate rfl

end Searcher

/-! ### One page -/

namespace Engine

/-- **A page is a window of the ranking**, unless it would end beyond the words of 64 bits. -/
theorem page_eq {ranking : Matches} (hsize : ranking.length < 2 ^ 64) (limit offset : UInt64) :
    page ranking limit offset =
      if 2 ^ 64 ≤ min offset.toNat ranking.length + limit.toNat then .error .pageTooLarge
      else .ok ⟨ranking.length, (ranking.drop offset.toNat).take limit.toNat⟩ := by
  have hlength : ranking.length.toUInt64.toNat = ranking.length := toNat_toUInt64_of_lt hsize
  have hfirst : (min offset ranking.length.toUInt64).toNat = min offset.toNat ranking.length := by
    rw [toNat_min, hlength]
  have hlimit := limit.toNat_lt
  rw [page]
  generalize min offset ranking.length.toUInt64 = first at hfirst
  have hlast : (min (first + limit) ranking.length.toUInt64).toNat =
      min ((first.toNat + limit.toNat) % 2 ^ 64) ranking.length := by
    rw [toNat_min, UInt64.toNat_add, hlength]
  generalize min (first + limit) ranking.length.toUInt64 = last at hlast
  rw [← hfirst]
  split
  · -- the end has come round to before the beginning
    rename_i hlt
    rw [UInt64.lt_iff_toNat_lt] at hlt
    rw [if_pos (by omega)]
  · rename_i hle
    rw [UInt64.lt_iff_toNat_lt, Nat.not_lt] at hle
    rw [if_neg (by omega), UInt64.toNat_sub_of_le _ _ (UInt64.le_iff_toNat_le.2 hle)]
    refine congrArg (fun results ↦ Except.ok (Page.mk ranking.length results)) ?_
    rcases Nat.lt_or_ge offset.toNat ranking.length with hlt | hge
    · have hoffset : first.toNat = offset.toNat := by omega
      rw [hoffset, List.take_eq_take_iff, List.length_drop]
      omega
    · -- the page begins behind the last result
      rw [List.drop_eq_nil_of_le (by omega), List.drop_eq_nil_of_le hge, List.take_nil,
        List.take_nil]

/-- A search that asks for results, and for no negative distance, is made in three steps. -/
theorem search_eq_bind {e : Engine} {o : SearchOptions} (hlimit : o.limit ≠ 0)
    (hdistance : ¬ o.maxDistance < 0) (text : Bytes) : e.search o text =
      (do
        let q ← Query.parse text
        let ranking ← e.searcher.evaluate o q
        page ranking o.limit o.offset) := by
  rw [search, if_neg hlimit, if_neg hdistance]

/-- A search with a limit is one page of the ranking of its query. -/
theorem search_eq {e : Engine} {o : SearchOptions} {text : Bytes} (hlimit : o.limit ≠ 0) {q : Query}
    (hparse : Query.parse text = .ok q) {ranking : Matches}
    (hevaluate : e.searcher.evaluate o q = .ok ranking) :
    e.search o text = if o.maxDistance < 0 then .error .negativeSearchDistance
      else page ranking o.limit o.offset := by
  split
  · rename_i hnegative
    rw [search, if_neg hlimit, if_pos hnegative]
    rfl
  · rename_i hdistance
    rw [search_eq_bind hlimit hdistance, hparse, Passes.ok_bind, hevaluate, Passes.ok_bind]

/-! ### Consecutive pages -/

/-- Consecutive windows of equal width make up a beginning of a list. -/
theorem flatMap_windows {α : Type} (l : List α) (width n : Nat) :
    ((List.range n).flatMap fun k ↦ (l.drop (k * width)).take width) = l.take (n * width) := by
  induction n with
  | zero => simp
  | succ n ih =>
    rw [List.range_succ, List.flatMap_append, ih, List.flatMap_singleton, Nat.succ_mul,
      List.take_add]

/-- **Searches page through the ranking of their query.** A search with a limit, whose query is
evaluated to a ranking, gives the number of all results and those after the offset, as many as the
limit allows. It is refused if it asks for terms within a negative distance, and also if the end of
the page, which is the offset, but no more than the number of results, and the limit together, does
not fit into 64 bits. Consecutive pages none of which is refused for that have one after another the
results that the ranking begins with, none left out and none twice. -/
theorem search_window {e : Engine} {o : SearchOptions} {text : Bytes} (hlimit : o.limit ≠ 0)
    {q : Query} (hparse : Query.parse text = .ok q) {ranking : Matches}
    (hevaluate : e.searcher.evaluate o q = .ok ranking) (hsize : ranking.length < 2 ^ 64) :
    (e.search o text =
        if o.maxDistance < 0 then .error .negativeSearchDistance
        else if 2 ^ 64 ≤ min o.offset.toNat ranking.length + o.limit.toNat then .error .pageTooLarge
        else .ok ⟨ranking.length, (ranking.drop o.offset.toNat).take o.limit.toNat⟩) ∧
      ∀ n : Nat, ¬ o.maxDistance < 0 →
        (∀ k < n, k * o.limit.toNat < 2 ^ 64 ∧
          min (k * o.limit.toNat) ranking.length + o.limit.toNat < 2 ^ 64) →
        ∃ pages : List Page,
          (List.range n).mapM (fun k ↦ e.search (o.atPage k) text) = .ok pages ∧
            (∀ p ∈ pages, p.total = ranking.length) ∧
            pages.flatMap (·.results) = ranking.take (n * o.limit.toNat) := by
  refine ⟨by rw [search_eq hlimit hparse hevaluate, page_eq hsize], fun n hnonneg hends ↦ ?_⟩
  have hpage : ∀ k ∈ List.range n, e.search (o.atPage k) text =
      .ok ⟨ranking.length, (ranking.drop (k * o.limit.toNat)).take o.limit.toNat⟩ := by
    intro k hk
    obtain ⟨hoffset, hend⟩ := hends k (List.mem_range.1 hk)
    have hsame : e.searcher.evaluate (o.atPage k) q = .ok ranking :=
      (e.searcher.evaluate_offset o _ q).trans hevaluate
    have hat : (o.atPage k).offset.toNat = k * o.limit.toNat := toNat_toUInt64_of_lt hoffset
    have hsameLimit : (o.atPage k).limit = o.limit := rfl
    rw [search_eq (o := o.atPage k) hlimit hparse hsame,
      if_neg (show ¬ (o.atPage k).maxDistance < 0 from hnonneg), page_eq hsize, hat, hsameLimit,
      if_neg (Nat.not_le.2 hend)]
  refine ⟨_, Passes.mapM_eq_ok hpage, ?_, ?_⟩
  · rw [List.forall_mem_map]
    exact fun _ _ ↦ rfl
  · rw [List.flatMap_map, flatMap_windows]

/-- With the greatest limit the first page has all results, and what comes after the first of them
is no page. -/
theorem search_window_greatest :
    let p : Bytes → Posting := fun id ↦ ⟨id, [⟨utf8 "title", [0]⟩], 1⟩
    let d : DocumentEntry := ⟨.ofList [(utf8 "title", 1)], [utf8 "hat"]⟩
    let ix : Index := ⟨.ofList [(utf8 "hat", [p (utf8 "1"), p (utf8 "2")])],
      .ofList [(utf8 "1", d), (utf8 "2", d)], 2, 1⟩
    let e : Engine := ⟨{}, {}, .tfidf, .empty, ix⟩
    let o : SearchOptions := { limit := 18446744073709551615, offset := 1 }
    let text := utf8 "\"hat\""
    let q : Query := .phrase 0 (utf8 "hat") [utf8 "hat"]
    o.limit ≠ 0 ∧ Query.parse text = .ok q ∧
      ∃ ranking, e.searcher.evaluate o q = .ok ranking ∧ ranking.length = 2 ∧
        e.search o text = .error .pageTooLarge ∧
        ∃ pages : List Page, (List.range 1).mapM (fun k ↦ e.search (o.atPage k) text) = .ok pages ∧
          (∀ p ∈ pages, p.total = 2) ∧ pages.flatMap (·.results) = ranking := by
  have hparse : Query.parse (utf8 "\"hat\"") = .ok (.phrase 0 (utf8 "hat") [utf8 "hat"]) := by
    with_unfolding_all rfl
  intro p d ix e o text q
  -- the matches are in order, so the evaluation ranks them
  obtain ⟨found, hfound, hordered, hlength⟩ : ∃ found, e.searcher.matches? o q = .ok found ∧
      found.isOrdered = true ∧ found.length = 2 :=
    ⟨_, by rw [Searcher.matches?]; rfl, rfl, rfl⟩
  have hevaluate : e.searcher.evaluate o q = .ok found.ranked := by
    show (do
      let found ← e.searcher.matches? o q
      if found.isOrdered then return found.ranked
      else .error (.index .unorderedMatches) : Except Error Matches) = _
    rw [hfound]
    exact if_pos hordered
  have hranked : found.ranked.length = 2 := found.ranked_perm.length_eq.trans hlength
  obtain ⟨hsearch, hpages⟩ := search_window (o := o) (by decide) hparse hevaluate (by omega)
  obtain ⟨pages, hpass, htotal, hresults⟩ := hpages 1 (by decide) fun k hk ↦ by
    have hlimit : o.limit.toNat = 18446744073709551615 := rfl
    obtain rfl : k = 0 := by omega
    omega
  refine ⟨by decide, hparse, found.ranked, hevaluate, hranked, ?_, pages, hpass, ?_, ?_⟩
  · rw [hsearch, if_neg (by decide), if_pos (by rw [hranked]; decide)]
  · rwa [hranked] at htotal
  · rw [hresults]
    exact List.take_of_length_le (by rw [hranked]; decide)

end Engine

end Concordance
