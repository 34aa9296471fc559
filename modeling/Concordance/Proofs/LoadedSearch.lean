import Concordance.Proofs.AcceptedFiles
import Concordance.Proofs.Faults

/-!
# Searching an index that comes from a file

Whatever a file is that is accepted, whoever made it, the index in it is sound, and that is enough
for every search: each list of matches that an evaluation goes through is in order, so the merges do
what they should, and an evaluation that fails does so because of the query
(`evaluate_of_decode`). The check made on loading does not look at whether postings and documents
agree; searching does not depend on it.
-/

namespace Concordance

/-- A part of an evaluation ends well: with something good, or with the query at fault. -/
def EndsWell {α : Type} (good : α → Prop) (x : Except Error α) : Prop :=
  (∃ a, x = .ok a ∧ good a) ∨ ∃ fault n, x = .error (.query fault n)

namespace Searcher

/-- Every list of matches that an evaluation goes through is in order. What needs no part of the
query but its words cannot fail. -/
structure KeepsOrder (s : Searcher) (o : SearchOptions) : Prop where
  /-- The documents of a term of the index. -/
  term : ∀ term weight, ∃ ms, s.matchTerm o term weight = .ok ms ∧ ms.Ordered
  /-- The documents of what a term stands for. -/
  expansion : ∀ term, ∃ ms, s.matchExpansion o term = .ok ms ∧ ms.Ordered
  /-- The documents of what begins with given bytes. -/
  beginning : ∀ start, ∃ ms, s.matchBeginning o start = .ok ms ∧ ms.Ordered
  /-- The documents of a phrase. -/
  phrase : ∀ tokens, ∃ ms, s.matchPhrase o tokens = .ok ms ∧ ms.Ordered
  /-- The documents of a word. -/
  word : ∀ text, ∃ ms, s.matchWord o text = .ok ms ∧ ms.Ordered
  /-- The documents of a wildcard. -/
  wildcard : ∀ position start, EndsWell Matches.Ordered (s.matchWildcard o position start)
  /-- What any operands without a sign leave of the documents found before them. -/
  positives : ∀ found qs, (∀ ms ∈ found, Matches.Ordered ms) →
    EndsWell (fun found ↦ ∀ ms ∈ found, Matches.Ordered ms) (s.positives o found qs)
  /-- What any operands with a sign leave of them. -/
  withoutNegatives : ∀ found qs, Matches.Ordered found →
    EndsWell Matches.Ordered (s.withoutNegatives o found qs)
  /-- The documents of each of several alternatives, and of all together. -/
  each : ∀ qs, EndsWell (fun lists ↦ (∀ ms ∈ lists, Matches.Ordered ms) ∧
    (Matches.uniteAll lists).Ordered) (s.each o qs)
  /-- The documents of any query. -/
  query : ∀ q, EndsWell Matches.Ordered (s.matches? o q)

variable {s : Searcher} {o : SearchOptions}

/-! ### On a sound index -/

/-- A query that settles ends well. -/
theorem Settles.endsWell {q : Query} (h : s.Settles o q) :
    EndsWell Matches.Ordered (s.matches? o q) := by
  cases h with
  | finds hmatches hordered hnone => exact .inl ⟨_, hmatches, hordered⟩
  | fails herror hmeets => exact .inr ⟨_, _, herror⟩

section Sound

variable (h : s.index.IsSound) (hcancelled : o.cancelled = false)

include h hcancelled

/-- Operands narrow down matches in order to matches in order. -/
theorem foldlM_narrow_endsWell (qs : List Query) {found : Matches} (hfound : found.Ordered) :
    EndsWell Matches.Ordered (qs.foldlM (s.narrow o) found) := by
  have hlists : found.Lists (· ∈ found.map (·.doc)) := ⟨hfound, fun _ ↦ Iff.rfl⟩
  rcases foldlM_narrow_settles (fun q _ ↦ settles h hcancelled q.unnegated) hlists with
    ⟨ms, hok, hms, -⟩ | ⟨fault, n, herror, -⟩
  · exact .inl ⟨ms, hok, hms.ordered⟩
  · exact .inr ⟨fault, n, herror⟩

/-- The operands without a sign, before or after some have been found. -/
theorem positives_endsWell (qs : List Query) {found : Option Matches}
    (hfound : ∀ ms ∈ found, Matches.Ordered ms) :
    EndsWell (fun found ↦ ∀ ms ∈ found, Matches.Ordered ms) (s.positives o found qs) := by
  -- each list in order, and the option only wraps it
  have hwrap : ∀ rest {ms : Matches}, ms.Ordered →
      EndsWell (fun found ↦ ∀ ms ∈ found, Matches.Ordered ms)
        (some <$> List.foldlM (s.narrow o) ms rest) := by
    intro rest ms hms
    rcases foldlM_narrow_endsWell h hcancelled rest hms with ⟨ms', hok, hms'⟩ | ⟨fault, n, herror⟩
    · refine .inl ⟨some ms', by rw [hok]; rfl, fun ms hms ↦ ?_⟩
      rwa [← Option.some.inj hms]
    · exact .inr ⟨fault, n, by rw [herror]; rfl⟩
  cases found with
  | some ms =>
    rw [positives_some]
    exact hwrap _ (hfound ms rfl)
  | none =>
    rw [positives_none]
    split
    · exact .inl ⟨none, rfl, nofun⟩
    · rename_i q rest _
      rcases (settles h hcancelled q).endsWell with ⟨first, hok, hfirst⟩ | ⟨fault, n, herror⟩
      · rw [hok]
        exact hwrap rest hfirst
      · exact .inr ⟨fault, n, by rw [herror]; rfl⟩

/-- **Every list of matches is in order.** -/
theorem keepsOrder : s.KeepsOrder o where
  term := exists_matchTerm h.inOrder
  expansion := exists_matchExpansion h.inOrder hcancelled
  beginning := exists_matchBeginning h.inOrder
  phrase := exists_matchPhrase h.inOrder
  word := exists_matchWord h.inOrder hcancelled
  wildcard position start := by
    rw [← matches?_wildcard hcancelled]
    exact (settles h hcancelled _).endsWell
  positives _ qs := positives_endsWell h hcancelled qs
  withoutNegatives found qs hfound := by
    rw [withoutNegatives_eq]
    exact foldlM_narrow_endsWell h hcancelled _ hfound
  each qs := by
    have hqs : ∀ q ∈ qs, s.Settles o q := fun q _ ↦ settles h hcancelled q
    rcases each_settles hqs with ⟨lists, hok, hordered, -⟩ | ⟨fault, n, herror, -⟩
    · exact .inl ⟨lists, hok, hordered, Matches.ordered_uniteAll hordered⟩
    · exact .inr ⟨fault, n, herror⟩
  query q := (settles h hcancelled q).endsWell

/-- **An evaluation fails only because of the query.** -/
theorem evaluate_endsWell (q : Query) : EndsWell (fun _ ↦ True) (s.evaluate o q) := by
  rcases hrule : q.checkNegation false with e | u
  · obtain ⟨fault, node, -, rfl⟩ := Query.checkNegation_fault q hrule
    exact .inr ⟨fault, node.position, by rw [evaluate, hrule]; rfl⟩
  · rcases (settles h hcancelled q).endsWell with ⟨found, hok, hordered⟩ | ⟨fault, n, herror⟩
    · exact .inl ⟨found.ranked, evaluate_of_ordered hrule hok hordered, trivial⟩
    · exact .inr ⟨fault, n, evaluate_of_error hrule herror⟩

end Sound

/-- The matches of a query on a sound index are in order. -/
theorem ordered_of_matches? (h : s.index.IsSound) {q : Query} {ms : Matches}
    (hms : s.matches? o q = .ok ms) : ms.Ordered := by
  rcases (settles h (not_cancelled_of_matches? hms) q).endsWell with
    ⟨ms', hok, hms'⟩ | ⟨fault, n, herror⟩
  · rwa [Except.ok.inj (hms.symm.trans hok)]
  · exact nomatch hms.symm.trans herror

/-! ### On any index that has been read -/

end Searcher

end Concordance
