import Concordance.Proofs.Conjunctions
import Concordance.Proofs.Ranking
import Mathlib.Data.List.Perm.Subperm

/-!
# Matches are documents of the index

A match is made of a posting, with the length of its document, so the document has to be in the
index: where it is not, the search fails (`known_of_documentStatistics`). Uniting, intersecting and
taking away bring in no others. So whatever the index is, all that an evaluation finds is in it
(`known_of_matches?`), and since what is ranked is in order, a ranking is no longer than the list of
documents (`length_le_of_evaluate`).
-/

namespace Concordance

namespace Matches

variable {p : Bytes → Prop} {a b : Matches}

/-- Matches whose documents all have a property. -/
def All (p : Bytes → Prop) (ms : Matches) : Prop :=
  ∀ id ∈ ms.map (·.doc), p id

theorem all_nil : All p [] :=
  List.forall_mem_nil _

/-- **What holds of the documents of a list holds after a merge.** -/
theorem All.intersect (ha : a.All p) (b : Matches) : (intersect a b).All p :=
  fun id hid ↦ ha id ((docs_intersect_sublist a b).subset hid)

theorem All.subtract (ha : a.All p) (b : Matches) : (subtract a b).All p :=
  fun id hid ↦ ha id (((subtract_sublist a b).map _).subset hid)

theorem All.unite (ha : a.All p) (hb : b.All p) : (unite a b).All p := by
  intro id hid
  obtain ⟨m, hm, rfl⟩ := List.mem_map.1 hid
  exact (doc_mem_of_mem_unite hm).elim (ha m.doc) (hb m.doc)

/-- **United matches come from one of the lists.** -/
theorem IsUnion.all {lists : List Matches} {ms : Matches} (h : IsUnion lists ms)
    (hlists : ∀ l ∈ lists, All p l) : All p ms := by
  induction h with
  | nil => exact all_nil
  | single a => exact hlists a List.mem_cons_self
  | unite _ _ iha ihb =>
    obtain ⟨has, hbs⟩ := List.forall_mem_append.1 hlists
    exact (iha has).unite (ihb hbs)

/-- So it does after a union of many. -/
theorem All.uniteAll {lists : List Matches} (h : ∀ l ∈ lists, All p l) :
    All p (Matches.uniteAll lists) :=
  (isUnion_uniteAll lists).all h

/-- Matches that are found row by row. -/
theorem all_of_filterMapM {α ε : Type} {f : α → Except ε (Option Match)} {l : List α}
    {ms : Matches} (h : l.filterMapM f = .ok ms) (hf : ∀ x ∈ l, ∀ m, f x = .ok (some m) → p m.doc) :
    ms.All p := by
  intro id hid
  obtain ⟨m, hm, rfl⟩ := List.mem_map.1 hid
  obtain ⟨x, hx, hfx⟩ := (Passes.mem_filterMapM_iff h).1 hm
  exact hf x hx m hfx

end Matches

namespace Searcher

variable {s : Searcher} {o : SearchOptions} {ms : Matches}

/-- Matches of documents that are in the index. -/
abbrev Known (s : Searcher) (ms : Matches) : Prop :=
  ms.All fun id ↦ s.index.hasDocument id = true

/-- **There are no statistics of an unknown document.** -/
theorem known_of_documentStatistics {id : Bytes} {n : UInt32} {d : DocumentStatistics}
    (h : s.documentStatistics o id n = .ok d) : s.index.hasDocument id = true := by
  obtain ⟨length, hlength, -⟩ := Passes.bind_eq_ok_iff.1 h
  rw [documentLength] at hlength
  rw [Index.hasDocument, Dict.contains]
  split at hlength
  · cases hlength
  · rename_i entry hfind
    rw [hfind]
    rfl

/-! ### Words, wildcards and phrases -/

/-- **A leaf finds documents of the index only**, because its postings are of these. -/
theorem known_of_matchTerm {term : Bytes} {weight : Float}
    (h : s.matchTerm o term weight = .ok ms) :
    s.Known ms := by
  refine Matches.all_of_filterMapM h fun p _ m hm ↦ ?_
  rw [matchPosting] at hm
  dsimp only at hm
  split at hm
  · cases hm
  · obtain ⟨d, hd, hm⟩ := Passes.bind_eq_ok_iff.1 hm
    rw [← Option.some.inj (Except.ok.inj hm)]
    exact known_of_documentStatistics hd

/-- Several terms, united. -/
theorem known_of_matchTerms {α : Type} {l : List α} (term : α → Bytes) (weight : α → Float)
    {lists : List Matches} (h : (l.mapM fun x ↦ s.matchTerm o (term x) (weight x)) = .ok lists) :
    s.Known (.uniteAll lists) :=
  .uniteAll (Passes.forall_mem_of_forall₂ (Passes.mapM_eq_ok_iff.1 h) fun _ _ ↦ known_of_matchTerm)

theorem known_of_matchExpansion {term : Bytes} (h : s.matchExpansion o term = .ok ms) :
    s.Known ms := by
  obtain ⟨weights, -, h⟩ := Passes.bind_eq_ok_iff.1 h
  obtain ⟨lists, hlists, h⟩ := Passes.bind_eq_ok_iff.1 h
  rw [← Except.ok.inj h]
  exact known_of_matchTerms _ _ hlists

theorem known_of_matchBeginning {start : Bytes} (h : s.matchBeginning o start = .ok ms) :
    s.Known ms := by
  obtain ⟨lists, hlists, h⟩ := Passes.bind_eq_ok_iff.1 h
  rw [← Except.ok.inj h]
  exact known_of_matchTerms id (fun _ ↦ 1) hlists

/-- So does a phrase, because it goes by the postings of its rarest term. -/
theorem known_of_matchPhrase {tokens : List Token} (h : s.matchPhrase o tokens = .ok ms) :
    s.Known ms := by
  rcases tokens with _ | ⟨token, tokens⟩
  · rw [← Except.ok.inj h]
    exact Matches.all_nil
  · rw [matchPhrase] at h
    dsimp only at h
    split at h
    · rw [← Except.ok.inj h]
      exact Matches.all_nil
    · refine Matches.all_of_filterMapM h fun row _ m hm ↦ ?_
      rw [matchPhrasePosting] at hm
      dsimp only at hm
      split at hm
      · cases hm
      · obtain ⟨d, hd, hm⟩ := Passes.bind_eq_ok_iff.1 hm
        rw [← Option.some.inj (Except.ok.inj hm)]
        exact known_of_documentStatistics hd

theorem known_of_matchWord {text : Bytes} (h : s.matchWord o text = .ok ms) : s.Known ms := by
  rw [matchWord] at h
  split at h
  · rw [← Except.ok.inj h]
    exact Matches.all_nil
  · exact known_of_matchExpansion h
  · exact known_of_matchPhrase h

theorem known_of_matchWildcard {position : Nat} {start : Bytes}
    (h : s.matchWildcard o position start = .ok ms) : s.Known ms := by
  rw [matchWildcard] at h
  split at h
  · rw [← Except.ok.inj h]
    exact Matches.all_nil
  · exact known_of_matchBeginning h
  · cases h

/-! ### Trees -/

/-- What is narrowed down stays in the index. -/
theorem known_of_narrow {q : Query} {found : Matches} (hfound : s.Known found)
    (h : s.narrow o found q = .ok ms) : s.Known ms := by
  rcases eq_or_ne found [] with rfl | hne
  · rw [← Except.ok.inj h]
    exact Matches.all_nil
  · rw [narrow_of_ne_nil hne] at h
    obtain ⟨others, -, hnext⟩ := Passes.bind_eq_ok_iff.1 h
    rw [← Except.ok.inj hnext]
    split
    · exact hfound.subtract others
    · exact hfound.intersect others

/-- However often it is narrowed down. -/
theorem known_of_foldlM_narrow {qs : List Query} {found : Matches} (hfound : s.Known found)
    (h : qs.foldlM (s.narrow o) found = .ok ms) : s.Known ms :=
  Passes.inv_of_foldlM (fun _ _ _ _ ↦ known_of_narrow) hfound h

/-- So alternatives do, if each does. -/
theorem known_of_each {qs : List Query}
    (hqs : ∀ q ∈ qs, ∀ ms, s.matches? o q = .ok ms → s.Known ms) {lists : List Matches}
    (h : s.each o qs = .ok lists) : ∀ l ∈ lists, s.Known l := by
  rw [each_eq_mapM] at h
  have hall := (List.forall₂_and_left qs lists).2 ⟨hqs, Passes.mapM_eq_ok_iff.1 h⟩
  exact Passes.forall_mem_of_forall₂ hall fun _ ms h ↦ h.1 ms h.2

/-- **All that an evaluation finds is in the index.** -/
theorem known_of_matches? (hcancelled : o.cancelled = false) {q : Query}
    (h : s.matches? o q = .ok ms) : s.Known ms := by
  induction q using Query.induct generalizing ms with
  | h t ih =>
    cases t with
    | word position text =>
      rw [matches?_word hcancelled] at h
      exact known_of_matchWord h
    | phrase position text words =>
      rw [matches?_phrase hcancelled] at h
      exact known_of_matchPhrase h
    | wildcard position start =>
      rw [matches?_wildcard hcancelled] at h
      exact known_of_matchWildcard h
    | neg position operand =>
      rw [matches?_neg hcancelled] at h
      cases h
    | conj position qs =>
      by_cases hall : ∀ q ∈ qs, q.isNegation = true
      · rw [matches?_conj_of_all hcancelled hall] at h
        cases h
      · -- the first operand in turn finds documents, and the others only narrow them down
        obtain ⟨q, rest, hturn, hsign⟩ := Query.exists_inTurn (by simpa using hall)
        have hq : q ∈ qs := Query.mem_inTurn.1 (hturn ▸ List.mem_cons_self)
        rw [matches?_conj hcancelled hturn hsign] at h
        obtain ⟨first, hfirst, h⟩ := Passes.bind_eq_ok_iff.1 h
        exact known_of_foldlM_narrow (ih q hq hfirst) h
    | disj position qs =>
      rw [matches?_disj hcancelled] at h
      obtain ⟨lists, hlists, rfl⟩ := Passes.map_eq_ok_iff.1 h
      exact .uniteAll (known_of_each (fun q hq ms ↦ ih q hq) hlists)

/-- Matches in order are no more than the documents. -/
theorem Known.length_le (h : s.Known ms) (hordered : ms.Ordered) :
    ms.length ≤ s.index.documents.size := by
  have hsubset : ms.map (·.doc) ⊆ s.index.documents.keys :=
    fun id hid ↦ Dict.contains_iff.1 (h id hid)
  have hle := (List.subperm_of_subset hordered.nodup hsubset).length_le
  rwa [List.length_map, Dict.keys, List.length_map] at hle

/-- **A ranking has each document of the index at most once.** -/
theorem length_le_of_evaluate (hcancelled : o.cancelled = false) {q : Query} {ranking : Matches}
    (h : s.evaluate o q = .ok ranking) : ranking.length ≤ s.index.documents.size := by
  obtain ⟨found, hfound, hordered, rfl⟩ := exists_of_evaluate h
  rw [found.ranked_perm.length_eq]
  exact (known_of_matches? hcancelled hfound).length_le hordered

end Searcher

end Concordance
