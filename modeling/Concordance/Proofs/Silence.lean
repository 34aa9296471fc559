import Concordance.Proofs.Conjunctions
import Concordance.Proofs.Ranking

/-!
# Asking for an explanation changes nothing else

A search that asks for explanations and one that does not are two runs of one evaluation. They are
compared by erasing: the matches of the first without their explanations are the matches of the
second. A leaf consults the option only once it is known that the document matches, and puts what it
collects where nothing looks at it. Merges and the test of the order go by documents, the early ends
of a conjunction by whether a list is empty, and the ranking by scores and documents, so erasing
commutes with each of them, and with the evaluation as a whole (`Searcher.bare_evaluate`). An
evaluation that fails makes no matches to erase, so it fails alike in both runs.
-/

namespace Concordance

/-- A match without its explanation. -/
def Match.bare (m : Match) : Match :=
  { m with explanation := ∅ }

/-- The same options without asking for explanations. -/
def SearchOptions.silent (o : SearchOptions) : SearchOptions :=
  { o with explain := false }

namespace Matches

variable {ε α β : Type} {a b ms : Matches} {m n : Match}

@[simp] theorem doc_bare : m.bare.doc = m.doc := rfl

/-- What is absorbed adds to the score and to the explanation, and only the one is left. -/
@[simp] theorem bare_absorb : (m.absorb n).bare = m.bare.absorb n.bare := rfl

/-- Matches without their explanations. -/
def bare (ms : Matches) : Matches :=
  ms.map Match.bare

@[simp] theorem bare_nil : bare [] = [] := rfl

@[simp] theorem bare_cons : bare (m :: ms) = m.bare :: bare ms := rfl

/-- Erasing leaves no list empty that was not. -/
theorem bare_ne_nil (h : ms ≠ []) : ms.bare ≠ [] :=
  fun hnil ↦ h (List.map_eq_nil_iff.1 hnil)

/-! ### Merges -/

/-- **Merges go by documents**, so they do not see whether there are explanations. -/
theorem bare_intersect : (intersect a b).bare = intersect a.bare b.bare := by
  fun_induction intersect a b with
  | case1 m ms n ns hlt ih =>
    rw [ih, bare_cons, bare_cons, intersect, doc_bare, doc_bare, if_pos hlt]
  | case2 m ms n ns hlt hgt ih =>
    rw [ih, bare_cons, bare_cons, intersect, doc_bare, doc_bare, if_neg hlt, if_pos hgt]
  | case3 m ms n ns hlt hgt ih =>
    rw [bare_cons, bare_cons, bare_cons, intersect, doc_bare, doc_bare, if_neg hlt, if_neg hgt, ih,
      bare_absorb]
  | case4 a b h =>
    cases a with
    | nil =>
      rw [bare_nil, intersect]
      simp
    | cons m ms =>
      cases b with
      | nil =>
        rw [bare_nil, intersect]
        simp
      | cons n ns => exact absurd rfl (h m ms n ns rfl)

theorem bare_unite : (unite a b).bare = unite a.bare b.bare := by
  fun_induction unite a b with
  | case1 m ms n ns hlt ih =>
    rw [bare_cons, bare_cons, bare_cons, unite, doc_bare, doc_bare, if_pos hlt, ih, bare_cons]
  | case2 m ms n ns hlt hgt ih =>
    rw [bare_cons, bare_cons, bare_cons, unite, doc_bare, doc_bare, if_neg hlt, if_pos hgt, ih,
      bare_cons]
  | case3 m ms n ns hlt hgt ih =>
    rw [bare_cons, bare_cons, bare_cons, unite, doc_bare, doc_bare, if_neg hlt, if_neg hgt, ih,
      bare_absorb]
  | case4 => rw [bare_nil, unite]
  | case5 ms hne => rw [bare_nil, unite]; exact bare_ne_nil hne

theorem bare_subtract : (subtract a b).bare = subtract a.bare b.bare := by
  fun_induction subtract a b with
  | case1 m ms n ns hgt ih =>
    rw [ih, bare_cons, bare_cons, subtract, doc_bare, doc_bare, if_pos hgt]
  | case2 m ms n ns hgt hlt ih =>
    rw [bare_cons, bare_cons, bare_cons, subtract, doc_bare, doc_bare, if_neg hgt, if_pos hlt, ih,
      bare_cons]
  | case3 m ms n ns hgt hlt ih =>
    rw [ih, bare_cons, bare_cons, subtract, doc_bare, doc_bare, if_neg hgt, if_neg hlt]
  | case4 => rw [bare_nil, subtract]
  | case5 ns hne => rw [bare_nil, subtract]; exact bare_ne_nil hne

theorem bare_uniteNeighbours (lists : List Matches) :
    (uniteNeighbours lists).map bare = uniteNeighbours (lists.map bare) := by
  fun_induction uniteNeighbours lists with
  | case1 a b rest ih =>
    rw [List.map_cons, List.map_cons, List.map_cons, uniteNeighbours, bare_unite, ih]
  | case2 lists h =>
    rcases lists with _ | ⟨a, _ | ⟨b, rest⟩⟩
    · rfl
    · rfl
    · exact absurd rfl (h a b rest)

/-- A balanced union is made of such merges. -/
theorem bare_uniteAll (lists : List Matches) :
    (uniteAll lists).bare = uniteAll (lists.map bare) := by
  fun_induction uniteAll lists with
  | case1 => rw [List.map_nil, uniteAll, bare_nil]
  | case2 a => rw [List.map_singleton, uniteAll]
  | case3 a b rest ih =>
    rw [ih, List.map_cons, List.map_cons, List.map_cons, uniteAll, bare_unite,
      bare_uniteNeighbours]

/-- Neither does the test of the order see them. -/
theorem isOrdered_bare : ms.bare.isOrdered = ms.isOrdered := by
  fun_induction isOrdered ms with
  | case1 m n rest ih => rw [bare_cons, bare_cons, isOrdered, ← bare_cons, ih, doc_bare, doc_bare]
  | case2 ms h =>
    rcases ms with _ | ⟨m, _ | ⟨n, rest⟩⟩
    · rfl
    · rfl
    · exact absurd rfl (h m n rest)

/-- Nor does the ranking, which goes by scores and documents. -/
theorem ranked_bare : ms.bare.ranked = ms.ranked.bare :=
  ranked_map (f := Match.bare) (fun _ _ ↦ rfl) ms

/-! ### Passes -/

/-- A pass that makes a match of some elements. -/
theorem bare_filterMapM {f g : α → Except ε (Option Match)}
    (h : ∀ x, Option.map Match.bare <$> f x = g x) (l : List α) :
    bare <$> l.filterMapM f = l.filterMapM g := by
  induction l with
  | nil => rfl
  | cons x l ih =>
    rw [List.filterMapM_cons, List.filterMapM_cons, ← h x, ← ih]
    rcases f x with e | _ | m
    · rfl
    · rfl
    · cases l.filterMapM f <;> rfl

/-- A pass that makes a list of matches of each element, all of them united. -/
theorem bare_mapM {f g : α → Except ε Matches} (h : ∀ x, bare <$> f x = g x) (l : List α) :
    bare <$> (do return .uniteAll (← l.mapM f) : Except ε Matches) =
      (do return .uniteAll (← l.mapM g)) := by
  have hmap : List.map bare <$> l.mapM f = l.mapM g := by
    induction l with
    | nil => rfl
    | cons x l ih =>
      rw [List.mapM_cons, List.mapM_cons, ← h x, ← ih]
      cases f x with
      | error e => rfl
      | ok ms => cases l.mapM f <;> rfl
  rw [← hmap]
  cases l.mapM f with
  | error e => rfl
  | ok lists => exact congrArg Except.ok (bare_uniteAll lists)

end Matches

namespace Searcher

open Matches (bare)

variable {s : Searcher} {o : SearchOptions}

/-! ### Leaves -/

/-- **A leaf consults the option once it is known that the document matches.** -/
theorem bare_matchPosting (term : Bytes) (weight : Float) (statistics : TermStatistics)
    (p : Posting) : Option.map Match.bare <$> s.matchPosting o term weight statistics p =
      s.matchPosting o.silent term weight statistics p := by
  have hfrequency : frequency o.silent p = frequency o p := rfl
  have hdocument : ∀ n, s.documentStatistics o.silent p.doc n = s.documentStatistics o p.doc n :=
    fun _ ↦ rfl
  simp only [matchPosting, hfrequency, hdocument]
  split
  · rfl
  · cases s.documentStatistics o p.doc (frequency o p) <;> rfl

/-- So the matches of a term are the same in both runs. -/
theorem bare_matchTerm (term : Bytes) (weight : Float) :
    bare <$> s.matchTerm o term weight = s.matchTerm o.silent term weight :=
  Matches.bare_filterMapM (bare_matchPosting term weight _) _

theorem bare_matchExpansion (term : Bytes) :
    bare <$> s.matchExpansion o term = s.matchExpansion o.silent term := by
  have hexpansion : s.expansion o.silent term = s.expansion o term := rfl
  rw [matchExpansion, matchExpansion, hexpansion]
  cases s.expansion o term with
  | error e => rfl
  | ok weights => exact Matches.bare_mapM (fun e : Bytes × Float ↦ bare_matchTerm e.1 e.2) _

theorem bare_matchBeginning (start : Bytes) :
    bare <$> s.matchBeginning o start = s.matchBeginning o.silent start :=
  Matches.bare_mapM (fun term ↦ bare_matchTerm term 1) _

/-- Whether a document has a phrase is known before its explanation is made. -/
theorem bare_matchPhrasePosting (terms : ByteSet) (offsets : List UInt32) (lists : List Postings)
    (lead : Posting) (others : List Posting) :
    Option.map Match.bare <$> s.matchPhrasePosting o terms offsets lists lead others =
      s.matchPhrasePosting o.silent terms offsets lists lead others := by
  have hfields : phraseFields o.silent lead others offsets = phraseFields o lead others offsets :=
    rfl
  have hdocument : ∀ n,
      s.documentStatistics o.silent lead.doc n = s.documentStatistics o lead.doc n := fun _ ↦ rfl
  simp only [matchPhrasePosting, hfields, hdocument]
  split
  · rfl
  · cases s.documentStatistics o lead.doc
      (total ((phraseFields o lead others offsets).map fun f ↦ f.2.toUInt32)) <;> rfl

/-- So the matches of a phrase are the same. -/
theorem bare_matchPhrase (tokens : List Token) :
    bare <$> s.matchPhrase o tokens = s.matchPhrase o.silent tokens := by
  cases tokens with
  | nil => rfl
  | cons token tokens =>
    simp only [matchPhrase]
    split
    · rfl
    · exact Matches.bare_filterMapM 
        (fun row : Posting × List Posting ↦ bare_matchPhrasePosting _ _ _ row.1 row.2) _

theorem bare_matchWord (text : Bytes) :
    bare <$> s.matchWord o text = s.matchWord o.silent text := by
  rw [matchWord, matchWord]
  split
  · rfl
  · exact bare_matchExpansion _
  · exact bare_matchPhrase _

theorem bare_matchWildcard (position : Nat) (start : Bytes) :
    bare <$> s.matchWildcard o position start = s.matchWildcard o.silent position start := by
  rw [matchWildcard, matchWildcard]
  split
  · rfl
  · exact bare_matchBeginning _
  · rfl

/-! ### Trees -/

/-- Erasing the explanations of a query, with and without its sign, gives what the query comes to
when none are asked for. -/
structure Silent (s : Searcher) (o : SearchOptions) (q : Query) : Prop where
  whole : bare <$> s.matches? o q = s.matches? o.silent q
  unsigned : bare <$> s.matches? o q.unnegated = s.matches? o.silent q.unnegated

/-- An operand without a sign is compared as it is. -/
theorem Silent.of_whole {q : Query} (hsign : q.isNegation = false)
    (h : bare <$> s.matches? o q = s.matches? o.silent q) : s.Silent o q :=
  ⟨h, by rwa [Query.unnegated_of_isNegation hsign]⟩

variable {qs : List Query}

/-- **The operands without a sign** come to an early end alike in both runs, because a list is empty
in both or in neither. -/
theorem bare_positives (h : ∀ q ∈ qs, s.Silent o q) : ∀ found : Option Matches,
    Option.map bare <$> s.positives o found qs = s.positives o.silent (found.map bare) qs := by
  induction qs with
  | nil => exact fun found ↦ by rw [positives, positives]; rfl
  | cons q qs ih =>
    intro found
    obtain ⟨hq, hqs⟩ := List.forall_mem_cons.1 h
    rcases hsign : q.isNegation with _ | _
    · rcases found with _ | _ | ⟨m, ms⟩
      · rw [Option.map_none, positives_first hsign, positives_first hsign, ← hq.whole]
        cases s.matches? o q with
        | error e => rfl
        | ok first => exact ih hqs (some first)
      · rw [Option.map_some, Matches.bare_nil, positives_stop hsign, positives_stop hsign]
        rfl
      · have hne : m :: ms ≠ [] := List.cons_ne_nil m ms
        rw [Option.map_some, positives_more hsign hne,
          positives_more hsign (Matches.bare_ne_nil hne), ← hq.whole]
        cases s.matches? o q with
        | error e => rfl
        | ok more =>
          refine (ih hqs _).trans ?_
          rw [Option.map_some, Matches.bare_intersect]
          rfl
    · rw [positives_skip hsign, positives_skip hsign, ih hqs]

/-- **So do those with a sign.** -/
theorem bare_withoutNegatives (h : ∀ q ∈ qs, s.Silent o q) : ∀ found : Matches,
    bare <$> s.withoutNegatives o found qs = s.withoutNegatives o.silent found.bare qs := by
  induction qs with
  | nil => exact fun found ↦ by rw [withoutNegatives, withoutNegatives]; rfl
  | cons q qs ih =>
    intro found
    obtain ⟨hq, hqs⟩ := List.forall_mem_cons.1 h
    rcases hsign : q.isNegation with _ | _
    · rw [withoutNegatives_skip hsign, withoutNegatives_skip hsign, ih hqs]
    · rcases found with _ | ⟨m, ms⟩
      · rw [Matches.bare_nil, withoutNegatives_stop hsign, withoutNegatives_stop hsign]
        rfl
      · have hne : m :: ms ≠ [] := List.cons_ne_nil m ms
        rw [withoutNegatives_less hsign hne,
          withoutNegatives_less hsign (Matches.bare_ne_nil hne), ← hq.unsigned]
        cases s.matches? o q.unnegated with
        | error e => rfl
        | ok fewer =>
          refine (ih hqs _).trans ?_
          rw [Matches.bare_subtract]
          rfl

/-- The operands of an alternative are evaluated one after another. -/
theorem bare_each (h : ∀ q ∈ qs, s.Silent o q) :
    List.map bare <$> s.each o qs = s.each o.silent qs := by
  induction qs with
  | nil => rw [each, each]; rfl
  | cons q qs ih =>
    obtain ⟨hq, hqs⟩ := List.forall_mem_cons.1 h
    rw [each, each, ← hq.whole, ← ih hqs]
    cases s.matches? o q with
    | error e => rfl
    | ok ms => cases s.each o qs <;> rfl

/-- **Erasing the explanations of a query** gives what it comes to when none are asked for. -/
theorem silent (s : Searcher) (o : SearchOptions) (q : Query) : s.Silent o q := by
  have hcheck : checkpoint o.silent = checkpoint o := rfl
  induction q using Query.induct with
  | h t ih =>
    cases t with
    | word position text =>
      refine .of_whole rfl ?_
      rw [matches?, matches?, hcheck, ← bare_matchWord]
      cases checkpoint o <;> rfl
    | phrase position text words =>
      refine .of_whole rfl ?_
      rw [matches?, matches?, hcheck, ← bare_matchPhrase]
      cases checkpoint o <;> rfl
    | wildcard position start =>
      refine .of_whole rfl ?_
      rw [matches?, matches?, hcheck, ← bare_matchWildcard]
      cases checkpoint o <;> rfl
    | neg position operand =>
      refine ⟨?_, (ih operand (List.mem_singleton_self _)).whole⟩
      rw [matches?, matches?, hcheck]
      cases checkpoint o <;> rfl
    | conj position qs =>
      refine .of_whole rfl ?_
      have hqs : ∀ q ∈ qs, s.Silent o q := ih
      have hpositives := bare_positives hqs none
      rw [Option.map_none] at hpositives
      rw [matches?, matches?, hcheck, ← hpositives]
      cases checkpoint o with
      | error e => rfl
      | ok u =>
        rcases s.positives o none qs with e | _ | found
        · rfl
        · rfl
        · exact bare_withoutNegatives hqs found
    | disj position qs =>
      refine .of_whole rfl ?_
      have hqs : ∀ q ∈ qs, s.Silent o q := ih
      rw [matches?, matches?, hcheck, ← bare_each hqs]
      cases checkpoint o with
      | error e => rfl
      | ok u =>
        cases s.each o qs with
        | error e => rfl
        | ok lists => exact congrArg Except.ok (Matches.bare_uniteAll lists)

/-- **Asking for an explanation does not change the answer.** Whatever the index, the analyzer, the
synonyms, the scorer, the query and the other options are: an evaluation that asks for explanations
and one that does not fail with the same error, or the first gives the ranking of the second, with
the same documents and scores in the same order, once the explanations are erased. -/
theorem bare_evaluate (s : Searcher) (o : SearchOptions) (q : Query) :
    bare <$> s.evaluate { o with explain := true } q =
      s.evaluate { o with explain := false } q := by
  have hmatches := (silent s { o with explain := true } q).whole
  rw [evaluate, evaluate]
  cases q.checkNegation false with
  | error e => rfl
  | ok u =>
    simp only [Passes.ok_bind]
    rw [show s.matches? { o with explain := false } q =
      bare <$> s.matches? { o with explain := true } q from hmatches.symm]
    cases s.matches? { o with explain := true } q with
    | error e => rfl
    | ok found =>
      show bare <$> (if found.isOrdered then _ else _) = if found.bare.isOrdered then _ else _
      rw [Matches.isOrdered_bare]
      split
      · exact congrArg Except.ok Matches.ranked_bare.symm
      · rfl

end Searcher

end Concordance
