import Concordance.Proofs.Conjunctions
import Concordance.Proofs.Matches
import Concordance.Proofs.Ranking
import Concordance.Proofs.Scores
import Concordance.Text.Table
import Mathlib.Data.List.Nodup

/-!
# The order of a ranking

Sorting takes two steps of which only the second one sorts: each match is put in front of those at
the end that it precedes. If all scores are numbers and no document is there twice
(`Matches.IsRankable`), the rank order is total, so what is put in one by one stands in order
(`Matches.pairwise_ranked`), whatever the first step left. There is one order only, so a ranking is
told by its documents and their scores, whatever search they come from.
-/

namespace Concordance

namespace Match

variable {m n p : Match}

/-- The rank order on matches whose scores are numbers. -/
theorem precedes_iff (hm : m.score.isNaN = false) (hn : n.score.isNaN = false) :
    m.precedes n = true ↔ Score.place n.score < Score.place m.score ∨
      Score.place m.score = Score.place n.score ∧ m.doc < n.doc := by
  have hbeq := Score.beq_iff_place_eq hm hn
  have hlt := Score.lt_iff_place_lt hn hm
  rw [precedes, bne]
  rcases hequal : m.score == n.score with _ | _
  · have hplace : Score.place m.score ≠ Score.place n.score := fun h ↦ by
      rw [hbeq.2 h] at hequal
      cases hequal
    simpa [hplace] using hlt
  · simp [hbeq.1 hequal]

/-- **The order of matches is transitive** among scores that are numbers. -/
theorem precedes_trans (hm : m.score.isNaN = false) (hn : n.score.isNaN = false)
    (hp : p.score.isNaN = false) (hmn : m.precedes n = true) (hnp : n.precedes p = true) :
    m.precedes p = true := by
  rw [precedes_iff hm hn] at hmn
  rw [precedes_iff hn hp] at hnp
  rw [precedes_iff hm hp]
  rcases hmn with hmn | ⟨hmn, hdoc⟩
  · rcases hnp with hnp | ⟨hnp, -⟩
    · exact .inl (hnp.trans hmn)
    · exact .inl (hnp ▸ hmn)
  · rcases hnp with hnp | ⟨hnp, hdoc'⟩
    · exact .inl (hmn ▸ hnp)
    · exact .inr ⟨hmn.trans hnp, Bytes.lt_trans hdoc hdoc'⟩

/-- Of two documents one precedes the other. -/
theorem precedes_of_not (hm : m.score.isNaN = false) (hn : n.score.isNaN = false)
    (hdoc : m.doc ≠ n.doc) (hmn : m.precedes n = false) : n.precedes m = true := by
  have hnot : ¬ m.precedes n = true := Bool.eq_false_iff.1 hmn
  rw [precedes_iff hm hn, not_or, not_and] at hnot
  rw [precedes_iff hn hm]
  rcases lt_trichotomy (Score.place m.score) (Score.place n.score) with h | h | h
  · exact .inl h
  · exact .inr ⟨h.symm, Bytes.lt_of_not_lt_of_ne (hnot.2 h) hdoc⟩
  · exact absurd h hnot.1

end Match

namespace Matches

variable {ms ms' : Matches} {m : Match}

/-- All scores are numbers, and no document is there twice. -/
structure IsRankable (ms : Matches) : Prop where
  number : ∀ m ∈ ms, m.score.isNaN = false
  nodup : (ms.map (·.doc)).Nodup

theorem IsRankable.perm (h : ms.IsRankable) (hperm : ms'.Perm ms) : ms'.IsRankable :=
  ⟨fun m hm ↦ h.number m (hperm.mem_iff.1 hm), ((hperm.map _).nodup_iff).2 h.nodup⟩

theorem IsRankable.sublist (h : ms.IsRankable) (hsub : ms'.Sublist ms) : ms'.IsRankable :=
  ⟨fun m hm ↦ h.number m (hsub.subset hm), h.nodup.sublist (hsub.map _)⟩

end Matches

/-! ### Putting in -/

namespace Ranking

variable {m : Match} {behind : Matches}

/-- **What is put in stands in order**, from the last to the first, if what it is put into does. -/
theorem pairwise_putIn (h : Matches.IsRankable (m :: behind))
    (hbehind : behind.Pairwise fun n p ↦ p.precedes n = true) :
    (putIn m behind).Pairwise fun n p ↦ p.precedes n = true := by
  induction behind with
  | nil => exact List.pairwise_singleton _ m
  | cons n rest ih =>
    have hm : m.score.isNaN = false := h.number m List.mem_cons_self
    have hn : n.score.isNaN = false := h.number n (List.mem_cons_of_mem m List.mem_cons_self)
    have hdoc : m.doc ≠ n.doc := (List.pairwise_cons.1 h.nodup).1 n.doc List.mem_cons_self
    obtain ⟨hfirst, hrest⟩ := List.pairwise_cons.1 hbehind
    rw [putIn]
    rcases hprecedes : m.precedes n with _ | _
    · have hafter : n.precedes m = true := Match.precedes_of_not hm hn hdoc hprecedes
      refine List.pairwise_cons.2 ⟨fun p hp ↦ ?_, hbehind⟩
      rcases List.mem_cons.1 hp with rfl | hp'
      · exact hafter
      · have hnumber : p.score.isNaN = false := h.number p (List.mem_cons_of_mem m hp)
        exact Match.precedes_trans hnumber hn hm (hfirst p hp') hafter
    · have hfewer : Matches.IsRankable (m :: rest) :=
        h.sublist ((List.sublist_cons_self n rest).cons_cons m)
      refine List.pairwise_cons.2 ⟨fun p hp ↦ ?_, ih hfewer hrest⟩
      rcases List.mem_cons.1 ((putIn_perm m rest).mem_iff.1 hp) with rfl | hp
      · exact hprecedes
      · exact hfirst p hp

/-- A match that is put in leaves the others sorted. -/
theorem pairwise_putFirst (h : Matches.IsRankable (m :: behind))
    (hbehind : behind.Pairwise fun n p ↦ p.precedes n = true) :
    (putFirst m behind).Pairwise fun n p ↦ p.precedes n = true := by
  rw [putFirst]
  split
  · rename_i first hlast
    split
    · rename_i hprecedes
      obtain ⟨others, rfl⟩ := List.getLast?_eq_some_iff.1 hlast
      obtain ⟨-, -, hfirst⟩ := List.pairwise_append.1 hbehind
      refine List.pairwise_append.2 ⟨hbehind, List.pairwise_singleton _ m, fun n hn p hp ↦ ?_⟩
      obtain rfl := List.mem_singleton.1 hp
      have hnumber : ∀ n ∈ p :: (others ++ [first]), n.score.isNaN = false := h.number
      rcases List.mem_append.1 hn with hother | hlast
      · have hmem : first ∈ p :: (others ++ [first]) := by simp
        exact Match.precedes_trans (hnumber p List.mem_cons_self) (hnumber first hmem)
          (hnumber n (List.mem_cons_of_mem p hn)) hprecedes
          (hfirst n hother first (List.mem_singleton_self first))
      · rwa [List.mem_singleton.1 hlast]
    · exact pairwise_putIn h hbehind
  · exact List.pairwise_singleton _ m

/-- Putting a row in, one match after another, if each is put in so as to stand in order. -/
theorem pairwise_foldl {put : Match → Matches → Matches}
    (hperm : ∀ m behind, (put m behind).Perm (m :: behind))
    (hput : ∀ {m behind}, Matches.IsRankable (m :: behind) →
      behind.Pairwise (fun n p ↦ p.precedes n = true) →
      (put m behind).Pairwise fun n p ↦ p.precedes n = true)
    {row : Matches} : ∀ {start : Matches}, Matches.IsRankable (row ++ start) →
      start.Pairwise (fun n p ↦ p.precedes n = true) →
      (row.foldl (fun behind m ↦ put m behind) start).Pairwise fun n p ↦ p.precedes n = true := by
  induction row with
  | nil => exact fun _ hstart ↦ hstart
  | cons m row ih =>
    intro start h hstart
    have hmoved : (row ++ put m start).Perm (m :: row ++ start) :=
      ((hperm m start).append_left row).trans List.perm_middle
    have hnext : Matches.IsRankable (m :: start) :=
      h.sublist ((List.sublist_append_right row start).cons_cons m)
    exact ih (h.perm hmoved) (hput hnext hstart)

end Ranking

/-! ### Rankings -/

namespace Matches

variable {ms ms' : Matches}

/-- **A ranking is in order**: each match precedes all those after it. -/
theorem pairwise_ranked (h : ms.IsRankable) :
    ms.ranked.Pairwise fun m n ↦ m.precedes n = true := by
  obtain ⟨row, start, hnarrow, hstart, hrow, hranked⟩ := ms.exists_ranked_eq
  have hall : row.IsRankable := h.perm hnarrow
  have hfirst : start.Pairwise fun n p ↦ p.precedes n = true := by
    rw [hstart]
    refine Ranking.pairwise_foldl Ranking.putFirst_perm Ranking.pairwise_putFirst ?_ .nil
    rw [List.append_nil]
    exact hall.sublist (List.take_sublist _ row)
  rw [hranked, List.pairwise_reverse]
  exact Ranking.pairwise_foldl Ranking.putIn_perm Ranking.pairwise_putIn (hall.perm hrow) hfirst

/-- Of equal scores the smaller identifier comes first. -/
example : (ranked [⟨[1], 0.5, ∅⟩, ⟨[2], 2, ∅⟩, ⟨[3], 0.5, ∅⟩]).map (·.doc) = [[2], [1], [3]] := by
  decide +kernel

/-- The documents found, with their scores. -/
def scored (ms : Matches) : List (Bytes × Float) :=
  ms.map fun m ↦ (m.doc, m.score)

end Matches

/-- The rank order on documents with scores: a higher score first, and of equal scores the smaller
identifier. -/
def Outranks (x y : Bytes × Float) : Prop :=
  y.2 < x.2 ∨ (x.2 == y.2) = true ∧ x.1 < y.1

section Outranks

variable {x y : Bytes × Float} (hx : x.2.isNaN = false) (hy : y.2.isNaN = false)

include hx hy

/-- What outranks: a greater score, or the same and a smaller document. -/
theorem outranks_iff : Outranks x y ↔ Score.place y.2 < Score.place x.2 ∨
    Score.place x.2 = Score.place y.2 ∧ x.1 < y.1 := by
  rw [Outranks, Score.lt_iff_place_lt hy hx, Score.beq_iff_place_eq hx hy]

/-- The rank order does not go both ways. -/
theorem not_outranks (h : Outranks x y) : ¬ Outranks y x := by
  rw [outranks_iff hx hy] at h
  rw [outranks_iff hy hx]
  rintro (hlt | ⟨heq, hdoc⟩)
  · rcases h with h | ⟨h, -⟩
    · exact lt_asymm h hlt
    · exact hlt.ne h
  · rcases h with h | ⟨-, h⟩
    · exact h.ne heq
    · exact Bytes.lt_irrefl _ (Bytes.lt_trans h hdoc)

end Outranks

namespace Matches

variable {ms ms' : Matches}

theorem IsRankable.nodup_scored (h : ms.IsRankable) : ms.scored.Nodup := by
  refine List.Nodup.of_map Prod.fst ?_
  rw [scored, List.map_map]
  exact h.nodup

theorem IsRankable.number_scored (h : ms.IsRankable) {x : Bytes × Float} (hx : x ∈ ms.scored) :
    x.2.isNaN = false := by
  obtain ⟨m, hm, rfl⟩ := List.mem_map.1 hx
  exact h.number m hm

/-- A list in which each match precedes all those after it is in rank order. -/
theorem IsRankable.pairwise_scored (h : ms.IsRankable)
    (hms : ms.Pairwise fun m n ↦ m.precedes n = true) : ms.scored.Pairwise Outranks := by
  refine List.pairwise_map.2 (hms.imp_of_mem fun {m n} hm hn hprecedes ↦ ?_)
  have hm' : (m.doc, m.score).2.isNaN = false := h.number m hm
  have hn' : (n.doc, n.score).2.isNaN = false := h.number n hn
  exact (outranks_iff hm' hn').2 ((Match.precedes_iff hm' hn').1 hprecedes)

/-- **The rank order can be kept in one way only.** -/
theorem scored_unique (h : ms.IsRankable) (h' : ms'.IsRankable)
    (hms : ms.scored.Pairwise Outranks) (hms' : ms'.scored.Pairwise Outranks)
    (hsame : ∀ x, x ∈ ms.scored ↔ x ∈ ms'.scored) : ms.scored = ms'.scored := by
  have hperm : ms.scored.Perm ms'.scored :=
    (List.perm_ext_iff_of_nodup h.nodup_scored h'.nodup_scored).2 hsame
  refine hperm.eq_of_pairwise (fun x y hx hy hxy hyx ↦ absurd hyx ?_) hms hms'
  exact not_outranks (h.number_scored hx) (h'.number_scored hy) hxy

end Matches

namespace Searcher

variable {s : Searcher} {o : SearchOptions} {q : Query} {ranking : Matches}

/-- No document is ranked twice. -/
theorem nodup_of_evaluate (h : s.evaluate o q = .ok ranking) : (ranking.map (·.doc)).Nodup := by
  obtain ⟨found, -, hordered, rfl⟩ := exists_of_evaluate h
  exact ((found.ranked_perm.map _).nodup_iff).2 hordered.nodup

/-- Each outranks those behind it. -/
theorem pairwise_of_evaluate (h : s.evaluate o q = .ok ranking)
    (hnumber : ∀ m ∈ ranking, m.score.isNaN = false) : ranking.scored.Pairwise Outranks := by
  have hrankable : ranking.IsRankable := ⟨hnumber, nodup_of_evaluate h⟩
  obtain ⟨found, -, hordered, rfl⟩ := exists_of_evaluate h
  exact hrankable.pairwise_scored
    (Matches.pairwise_ranked (hrankable.perm found.ranked_perm.symm))

/-- **A ranking loses nothing and is canonical.** What an evaluation gives back is a permutation of
the matches found, each with its own score and explanation, and no document is there twice. If the
scores are numbers, of any two places the first has the higher score, or the scores are equal and
the first has the smaller identifier. So the documents with their scores stand in the one order that
there is for them: any other search that finds the same documents with the same scores ranks them in
the same way. -/
theorem evaluate_canonical {s : Searcher} {o : SearchOptions} {q : Query} {ranking : Matches}
    (h : s.evaluate o q = .ok ranking) :
    (∃ found, s.matches? o q = .ok found ∧ ranking.Perm found) ∧ (ranking.map (·.doc)).Nodup ∧
      ((∀ m ∈ ranking, m.score.isNaN = false) → ranking.scored.Pairwise Outranks ∧
        ∀ (s' : Searcher) (o' : SearchOptions) (q' : Query) (ranking' : Matches),
          s'.evaluate o' q' = .ok ranking' → (∀ m ∈ ranking', m.score.isNaN = false) →
          (∀ x, x ∈ ranking.scored ↔ x ∈ ranking'.scored) → ranking.scored = ranking'.scored) := by
  refine ⟨?_, nodup_of_evaluate h, fun hnumber ↦ ⟨pairwise_of_evaluate h hnumber, ?_⟩⟩
  · obtain ⟨found, hfound, -, rfl⟩ := exists_of_evaluate h
    exact ⟨found, hfound, found.ranked_perm⟩
  · intro s' o' q' ranking' h' hnumber' hsame
    exact Matches.scored_unique ⟨hnumber, nodup_of_evaluate h⟩ ⟨hnumber', nodup_of_evaluate h'⟩
      (pairwise_of_evaluate h hnumber) (pairwise_of_evaluate h' hnumber') hsame

/-- Two documents with the same score: if it is a number, they are ranked by their identifiers. -/
theorem evaluate_canonical_tie :
    let p : Bytes → Posting := fun id ↦ ⟨id, [⟨utf8 "title", [0]⟩], 1⟩
    let d : DocumentEntry := ⟨.ofList [(utf8 "title", 1)], [utf8 "hat"]⟩
    let ix : Index := ⟨.ofList [(utf8 "hat", [p (utf8 "1"), p (utf8 "2")])],
      .ofList [(utf8 "1", d), (utf8 "2", d)], 2, 1⟩
    let s : Searcher := ⟨ix, {}, ⟨[]⟩, .tfidf, 0.5⟩
    let o : SearchOptions := {}
    let q : Query := .word 0 (utf8 "hat")
    let score : Float := 1 * s.scorer.score ⟨2, 2⟩ ⟨1, 1, ix.averageLength⟩
    let found : Matches := [⟨utf8 "1", score, ∅⟩, ⟨utf8 "2", score, ∅⟩]
    s.matches? o q = .ok found ∧ ∃ ranking, s.evaluate o q = .ok ranking ∧ ranking.Perm found ∧
      (score.isNaN = false → ranking.scored = found.scored) := by
  intro p d ix s o q score found
  have hfound : s.matches? o q = .ok found := by
    rw [matches?]
    with_unfolding_all rfl
  have hordered : found.Ordered := Matches.isOrdered_iff.1 (by rfl)
  have hevaluate : s.evaluate o q = .ok found.ranked := evaluate_of_ordered rfl hfound hordered
  have hperm := found.ranked_perm
  obtain ⟨-, hnodup, hranks⟩ := evaluate_canonical hevaluate
  refine ⟨hfound, found.ranked, hevaluate, hperm, fun hnumber ↦ ?_⟩
  have hall : ∀ m ∈ found, m.score.isNaN = false :=
    List.forall_mem_cons.2 ⟨hnumber, List.forall_mem_singleton.2 hnumber⟩
  -- the matches found stand in rank order already, and there is one such order only
  have htie : Outranks (utf8 "1", score) (utf8 "2", score) :=
    .inr ⟨(Score.beq_iff_place_eq hnumber hnumber).2 rfl, by decide⟩
  have hpairwise : found.scored.Pairwise Outranks :=
    List.pairwise_pair.2 htie
  have hall' : ∀ m ∈ found.ranked, m.score.isNaN = false :=
    fun m hm ↦ hall m (hperm.mem_iff.1 hm)
  exact Matches.scored_unique ⟨hall', hnodup⟩ ⟨hall, hordered.nodup⟩ (hranks hall').1 hpairwise
    fun x ↦ (hperm.map _).mem_iff

end Searcher

end Concordance
