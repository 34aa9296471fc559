import Concordance.Proofs.CorpusIndex
import Concordance.Proofs.Matches
import Concordance.Proofs.NearTerms
import Concordance.Proofs.Passes
import Concordance.Proofs.Satisfaction
import Concordance.Proofs.TermPostings
import Concordance.Proofs.TermRange
import Concordance.Search.Term

/-!
# The documents of a term

On the index of a corpus the search for a term finds the documents in which it counts. The frequency
of a posting is the number of occurrences in the fields that count (`frequency_posting`), as a word
of 32 bits; in a document that is small enough it does not wrap around, and a posting becomes a
match exactly if the document has the term there (`Corpus.counts_iff`). What a term stands for is
then the union over the terms of its expansion, and what begins with given bytes the union over one
run of terms.

No more of an index comes into it than which documents there are and what their postings are
(`Index.Mirrors`).
-/

namespace Concordance

/-- **A pass over rows in order lists the documents of the rows that it keeps.** -/
theorem Matches.lists_filterMapM {α ε : Type} {f : α → Except ε (Option Match)} (key : α → Bytes)
    {l : List α} {p : Bytes → Prop} (hl : l.Pairwise fun x y ↦ key x < key y)
    (hf : ∀ x ∈ l, ∃ y, f x = .ok y ∧ (∀ m ∈ y, m.doc = key x) ∧ (y.isSome ↔ p (key x)))
    (hp : ∀ id, p id → ∃ x ∈ l, key x = id) :
    ∃ ms, l.filterMapM f = .ok ms ∧ Matches.Lists ms p := by
  classical
  obtain ⟨ys, hall, hpass⟩ := Passes.exists_filterMapM hf
  refine ⟨_, hpass, ?_⟩
  -- what is kept has the keys of the rows with the property, in the order of the rows
  have hdocs : (ys.filterMap id).map (·.doc) =
      (l.map key).filter fun k ↦ p k := by
    clear hpass hl hf hp
    induction hall with
    | nil => rfl
    | @cons x y l ys hxy _ ih =>
      obtain ⟨hdoc, hsome⟩ := hxy
      cases y with
      | none =>
        have hnot : ¬ p (key x) := fun h ↦ absurd (hsome.2 h) (by simp)
        rw [List.map_cons, List.filter_cons_of_neg (by simpa using hnot), ← ih]
        rfl
      | some m =>
        have hpx : p (key x) := hsome.1 rfl
        rw [List.map_cons, List.filter_cons_of_pos (by simpa using hpx), ← ih, ← hdoc m rfl]
        rfl
  refine ⟨?_, fun id ↦ ?_⟩
  · refine List.pairwise_map.1 ?_
    rw [hdocs]
    exact (List.pairwise_map.2 hl).filter _
  · rw [hdocs, List.mem_filter, decide_eq_true_iff, List.mem_map]
    exact ⟨fun h ↦ h.2, fun h ↦ ⟨hp id h, h⟩⟩

/-! ### Occurrences that count -/

namespace Corpus

variable {a : Analyzer} {o : SearchOptions} {fields : Dict Bytes} {term : Bytes}

/-- **A term occurs at least once exactly if the document has it.** -/
theorem count_pos_iff : 0 < count a o fields term ↔ Has a o fields term := by
  rw [count, has_iff, List.sum_pos_iff_exists_pos_nat]
  simp only [List.mem_map, List.mem_filter, ← List.length_pos_iff]
  constructor
  · rintro ⟨-, ⟨f, ⟨hf, hadmits⟩, rfl⟩, hpos⟩
    obtain ⟨text, htext, htokens⟩ := mem_fieldTokens.1 hf
    exact ⟨f.1, text, htext, hadmits, htokens ▸ hpos⟩
  · rintro ⟨field, text, htext, hadmits, hpos⟩
    exact ⟨_, ⟨(field, a.tokens text field), ⟨mem_fieldTokens.2 ⟨text, htext, rfl⟩, hadmits⟩, rfl⟩,
      hpos⟩

/-- A term occurs at most as often as there are tokens. -/
theorem count_le : count a o fields term ≤ size a fields := by
  have hfield : ∀ tokens : List Token, (positions term tokens).length ≤ tokens.length := by
    intro tokens
    rw [positions, List.length_map]
    exact List.length_filter_le _ _
  calc count a o fields term
      ≤ (((fieldTokens a fields).filter fun f ↦ o.admits f.1).map fun f ↦ f.2.length).sum :=
        List.sum_le_sum fun f _ ↦ hfield f.2
    _ ≤ size a fields :=
        (List.filter_sublist.map fun f : Bytes × List Token ↦ f.2.length).sum_le_sum
          fun _ _ ↦ Nat.zero_le _

theorem Counts.has (h : Counts a o fields term) : Has a o fields term :=
  count_pos_iff.1 (pos_of_not_dvd h)

/-- **In a document that is small enough what occurs counts.** -/
theorem counts_iff (hsize : size a fields < 2 ^ 32) :
    Counts a o fields term ↔ Has a o fields term :=
  (not_dvd_iff_pos (count_le.trans_lt hsize)).trans count_pos_iff

/-- The positions in the hits that count come to the number of occurrences. -/
theorem sum_hits : (((hits a term fields).filter fun h ↦ o.admits h.field).map
    fun h ↦ h.positions.length).sum = count a o fields term := by
  have hnil : ∀ h : FieldHits, ¬ decide (h.positions ≠ []) = true → h.positions.length = 0 :=
    fun h hh ↦ by simpa using hh
  rw [hits, List.filter_comm, sum_map_filter fun h _ ↦ hnil h, List.filter_map, List.map_map]
  rfl

end Corpus

/-! ### What is searched -/

/-- All that a search looks at of the documents of an index: which there are, and the postings of
their terms. They are those of a corpus. -/
structure Index.Mirrors (ix : Index) (a : Analyzer) (c : Corpus) : Prop where
  documents : ∀ id, ix.hasDocument id = true ↔ ∃ fields, c.find? id = some fields
  postings : ∀ term, ix.postings term = c.postings a term

/-- A searcher on the index of a corpus, and options that it can serve: its synonyms are
well-formed, the search has not been called off, and one more than the greatest distance is still a
number of 32 bits. -/
structure Searcher.Serves (s : Searcher) (o : SearchOptions) (c : Corpus) : Prop where
  index : s.index = c.index s.analyzer s.index.version
  fits : c.Fits s.analyzer
  synonyms : ∀ members ∈ s.synonyms.classes, ∀ t ∈ members.toList, Utf8.isValid t = true
  notCancelled : o.cancelled = false
  nonneg : 0 ≤ o.maxDistance.toInt
  bounded : o.maxDistance.toInt < 2 ^ 31 - 1

namespace Searcher

variable {s : Searcher} {a : Analyzer} {c : Corpus} {o : SearchOptions}

/-! ### One posting -/

theorem admits_of_isEmpty (h : o.fields.isEmpty = true) (field : Bytes) :
    o.admits field = true := by
  rw [SearchOptions.admits, h, Bool.true_or]

/-- **The frequency of a posting is the number of occurrences**, as a word. -/
theorem frequency_posting {id term : Bytes} {fields : Dict Bytes} {p : Posting}
    (hp : Corpus.posting? a term id fields = some p) :
    frequency o p = (Corpus.count a o fields term).toUInt32 := by
  obtain ⟨rfl, -⟩ := Corpus.posting?_eq_some_iff.1 hp
  rw [frequency, ← Corpus.sum_hits]
  split
  · rename_i hall
    rw [List.filter_eq_self.2 fun h _ ↦ admits_of_isEmpty hall h.field]
    rfl
  · exact total_map_toUInt32 (fun h : FieldHits ↦ h.positions.length) _

/-- A document that is there has statistics, for every frequency. -/
theorem exists_documentStatistics {id : Bytes} (h : s.index.hasDocument id = true) (n : UInt32) :
    ∃ d, s.documentStatistics o id n = .ok d := by
  obtain ⟨entry, hfind⟩ := Option.isSome_iff_exists.1 h
  rw [documentStatistics, documentLength, hfind]
  exact ⟨_, rfl⟩

/-- **The posting of a document that is there is a match of that document**, if its frequency is not
zero. -/
theorem exists_matchPosting {p : Posting} (h : s.index.hasDocument p.doc = true) (term : Bytes)
    (weight : Float) (statistics : TermStatistics) :
    ∃ y, s.matchPosting o term weight statistics p = .ok y ∧ (∀ m ∈ y, m.doc = p.doc) ∧
      (y.isSome ↔ frequency o p ≠ 0) := by
  rw [matchPosting]
  by_cases hzero : frequency o p = 0
  · exact ⟨none, if_pos hzero, nofun, ⟨nofun, fun hne ↦ absurd hzero hne⟩⟩
  · obtain ⟨d, hd⟩ := exists_documentStatistics (o := o) h (frequency o p)
    rw [if_neg hzero, hd]
    exact ⟨some _, rfl, fun m hm ↦ Option.some.inj hm ▸ rfl, ⟨fun _ ↦ hzero, fun _ ↦ rfl⟩⟩

/-! ### Weights -/

/-- Raising weights adds their terms to a table. -/
theorem mem_keys_foldl_raise {α : Type} {l : List α} {term : α → Bytes} {weight : α → Float}
    {weights : Dict Float} {k : Bytes} :
    k ∈ (l.foldl (fun weights x ↦ raise weights (term x) (weight x)) weights).keys ↔
      k ∈ weights.keys ∨ k ∈ l.map term := by
  induction l generalizing weights with
  | nil => simp
  | cons x l ih =>
    rw [List.foldl_cons, ih, raise, Dict.mem_keys_insert, List.map_cons, List.mem_cons]
    tauto

end Searcher

namespace Index.Mirrors

variable {s : Searcher} {c : Corpus} {o : SearchOptions} (h : s.index.Mirrors s.analyzer c)

include h

/-- **The documents of one term are those in which it counts.** -/
theorem lists_matchTerm (term : Bytes) (weight : Float) :
    ∃ ms, s.matchTerm o term weight = .ok ms ∧
      Matches.Lists ms (c.Where fun fields ↦ Corpus.Counts s.analyzer o fields term) := by
  rw [Searcher.matchTerm, h.postings]
  refine Matches.lists_filterMapM (·.doc) (Corpus.postings_ascending _ c term) (fun p hp ↦ ?_) ?_
  · obtain ⟨fields, hfind, hposting⟩ := Corpus.mem_postings.1 hp
    obtain ⟨y, hy, hdoc, hsome⟩ := Searcher.exists_matchPosting (o := o)
      ((h.documents _).2 ⟨fields, hfind⟩) term weight
      (s.termStatistics (c.postings s.analyzer term))
    refine ⟨y, hy, hdoc, hsome.trans ?_⟩
    rw [Corpus.where_iff hfind, Searcher.frequency_posting hposting, ne_eq, toUInt32_eq_zero_iff]
    rfl
  · rintro id ⟨fields, hfind, hcounts⟩
    obtain ⟨field, text, hfield, -, hoccurs⟩ := hcounts.has
    have hterm := Corpus.mem_terms_iff_occurs.2 ⟨field, text, hfield, hoccurs⟩
    exact ⟨⟨id, _, _⟩,
      Corpus.mem_postings.2 ⟨fields, hfind, Corpus.posting?_eq_some_iff.2 ⟨rfl, hterm⟩⟩, rfl⟩

/-- What a document has is a term of the index. -/
theorem mem_keys_of_has {id term : Bytes} {fields : Dict Bytes} (hfind : c.find? id = some fields)
    (hhas : Corpus.Has s.analyzer o fields term) : term ∈ s.index.terms.keys := by
  obtain ⟨field, text, hfield, -, hoccurs⟩ := hhas
  have hterm := Corpus.mem_terms_iff_occurs.2 ⟨field, text, hfield, hoccurs⟩
  have hp := Corpus.mem_postings (p := ⟨id, _, _⟩).2
    ⟨fields, hfind, Corpus.posting?_eq_some_iff.2 ⟨rfl, hterm⟩⟩
  rw [← h.postings, Index.postings] at hp
  rcases hterms : s.index.terms.find? term with _ | ps
  · rw [hterms] at hp
    exact absurd hp List.not_mem_nil
  · exact Dict.mem_keys_iff.2 ⟨ps, hterms⟩

end Index.Mirrors

namespace Searcher.Serves

variable {s : Searcher} {c : Corpus} {o : SearchOptions} (h : s.Serves o c)

include h

theorem mirrors : s.index.Mirrors s.analyzer c where
  documents id := by
    rw [h.index, Index.hasDocument, Dict.contains]
    show ((c.mapValues _).find? id).isSome = true ↔ _
    rw [Dict.find?_mapValues, Option.isSome_map, Option.isSome_iff_exists]
  postings term := by
    rw [h.index]
    exact (Index.keeps_index _ c _).getD_find? term

theorem size_lt {id : Bytes} {fields : Dict Bytes} (hfind : c.find? id = some fields) :
    Corpus.size s.analyzer fields < 2 ^ 32 :=
  h.fits fields (Dict.mem_values_iff.2 ⟨id, hfind⟩)

/-! ### One term -/

/-- **The documents of one term are those that have it.** -/
theorem lists_matchTerm (term : Bytes) (weight : Float) :
    ∃ ms, s.matchTerm o term weight = .ok ms ∧
      Matches.Lists ms (c.Where fun fields ↦ Corpus.Has s.analyzer o fields term) := by
  obtain ⟨ms, hok, hlists⟩ := h.mirrors.lists_matchTerm (o := o) term weight
  exact ⟨ms, hok, hlists.congr fun id ↦ exists_congr fun fields ↦ and_congr_right fun hfind ↦
    Corpus.counts_iff (h.size_lt hfind)⟩

/-- The documents of several terms, in any order and each with any weight. -/
theorem lists_matchTerms {α : Type} (l : List α) (term : α → Bytes) (weight : α → Float) :
    ∃ lists, (l.mapM fun x ↦ s.matchTerm o (term x) (weight x)) = .ok lists ∧
      Matches.Lists (.uniteAll lists)
        (c.Where fun fields ↦ ∃ x ∈ l, Corpus.Has s.analyzer o fields (term x)) := by
  obtain ⟨lists, hlists, hall⟩ := Passes.exists_mapM (l := l)
    fun x _ ↦ h.lists_matchTerm (term x) (weight x)
  exact ⟨lists, hlists, (Matches.Lists.uniteAll hall).congr fun id ↦ Corpus.where_exists.symm⟩

/-! ### What a term stands for -/

/-- The terms of the index are those of some document. -/
theorem mem_keys_iff {term : Bytes} : term ∈ s.index.terms.keys ↔
    ∃ id fields, c.find? id = some fields ∧ Corpus.Occurs s.analyzer term fields := by
  have hkeys : (c.index s.analyzer s.index.version).terms.keys =
      (c.vocabulary s.analyzer).keys := Dict.keys_mapValues _ _
  rw [h.index, hkeys]
  simp only [← Corpus.mem_terms_iff_occurs]
  exact Corpus.mem_vocabulary

theorem isValid_of_mem_keys {term : Bytes} (hterm : term ∈ s.index.terms.keys) :
    Utf8.isValid term = true := by
  obtain ⟨_, _, _, _, _, _, token, htoken, rfl⟩ := h.mem_keys_iff.1 hterm
  exact Analyzer.isValid_of_mem_tokensFrom htoken

theorem isValid_of_mem_expand {term t : Bytes} (hterm : Utf8.isValid term = true)
    (ht : t ∈ (s.synonyms.expand term).toList) : Utf8.isValid t = true := by
  rw [Synonyms.expand, Synonyms.classOf] at ht
  rcases hclass : s.synonyms.classes.find? (·.contains term) with _ | members
  · rw [hclass, Option.getD_none, ByteSet.mem_toList_ofList, List.mem_singleton] at ht
    rwa [ht]
  · rw [hclass, Option.getD_some] at ht
    exact h.synonyms members (List.mem_of_find?_eq_some hclass) t ht

/-- The terms near one of several. -/
theorem exists_nearWeights (hpos : 0 < o.maxDistance.toInt) (terms : List Bytes) :
    ∃ weights, s.nearWeights o terms = .ok weights ∧ ∀ k, k ∈ weights.keys ↔
      k ∈ s.index.terms.keys ∧ ∃ t ∈ terms,
        (EditDistance.distance (Utf8.decodeLossy t) (Utf8.decodeLossy k) : Int) ≤
          o.maxDistance.toInt := by
  refine Passes.exists_foldlM (fun done weights ↦ ∀ k, k ∈ Dict.keys weights ↔
    k ∈ s.index.terms.keys ∧ ∃ t ∈ done,
      (EditDistance.distance (Utf8.decodeLossy t) (Utf8.decodeLossy k) : Int) ≤
        o.maxDistance.toInt) (fun done t _ weights _ hinv ↦ ?_)
      (fun k ↦ by simp [Dict.mem_keys_iff])
  obtain ⟨found, hfound, hmem⟩ :=
    Index.exists_near (fun _ ↦ h.isValid_of_mem_keys) t hpos h.bounded
  refine ⟨_, by rw [h.notCancelled, hfound]; rfl, fun k ↦ ?_⟩
  rw [mem_keys_foldl_raise, hinv, hmem]
  simp only [List.mem_append, List.mem_singleton, or_and_right, exists_or, exists_eq_left]
  exact and_or_left.symm

/-- The terms that a term stands for. -/
theorem exists_expansion (term : Bytes) :
    ∃ weights, s.expansion o term = .ok weights ∧ ∀ k, k ∈ weights.keys ↔
      k ∈ (s.synonyms.expand term).toList ∨ 0 < o.maxDistance.toInt ∧ k ∈ s.index.terms.keys ∧
        ∃ t ∈ (s.synonyms.expand term).toList,
          (EditDistance.distance (Utf8.decodeLossy t) (Utf8.decodeLossy k) : Int) ≤
            o.maxDistance.toInt := by
  have hexact : ∀ k, k ∈ Dict.keys
      (.ofList ((s.synonyms.expand term).toList.map fun t ↦ (t, (1 : Float)))) ↔
        k ∈ (s.synonyms.expand term).toList := by
    intro k
    rw [Dict.mem_keys_ofList]
    simp
  rw [expansion]
  split
  · rename_i hlt
    have hpos : 0 < o.maxDistance.toInt := Int32.lt_iff_toInt_lt.1 hlt
    obtain ⟨near, hnear, hmem⟩ := h.exists_nearWeights hpos (s.synonyms.expand term).toList
    rw [hnear]
    refine ⟨_, rfl, fun k ↦ ?_⟩
    -- raising a weight that is there changes no key
    have hkeys : near.entries.map (·.1) = near.keys := rfl
    rw [mem_keys_foldl_raise, hexact, hkeys, hmem]
    simp only [hpos, true_and]
  · rename_i hlt
    have hpos : ¬ 0 < o.maxDistance.toInt := fun hpos ↦ hlt (Int32.lt_iff_toInt_lt.2 hpos)
    refine ⟨_, rfl, fun k ↦ ?_⟩
    rw [hexact]
    simp only [hpos, false_and, or_false]

/-- **The documents of a term are those with one that is near what it stands for.** -/
theorem lists_matchExpansion {term : Bytes} (hterm : Utf8.isValid term = true) :
    ∃ ms, s.matchExpansion o term = .ok ms ∧ Matches.Lists ms
      (c.Where fun fields ↦ Corpus.HasNear s.analyzer s.synonyms o fields term) := by
  obtain ⟨weights, hweights, hmem⟩ := h.exists_expansion term
  obtain ⟨lists, hlists, hall⟩ := h.lists_matchTerms weights.entries (·.1) (·.2)
  refine ⟨.uniteAll lists, ?_, hall.congr fun id ↦ exists_congr fun fields ↦
    and_congr_right fun hfind ↦ ?_⟩
  · rw [matchExpansion, hweights]
    show (do
      let lists ← weights.entries.mapM fun e ↦ s.matchTerm o e.1 e.2
      return Matches.uniteAll lists : Except Error Matches) = _
    rw [hlists]
    rfl
  · have hkeys : (∃ e ∈ weights.entries, Corpus.Has s.analyzer o fields e.1) ↔
        ∃ k ∈ weights.keys, Corpus.Has s.analyzer o fields k := by
      simp [Dict.keys]
    refine hkeys.trans ⟨?_, ?_⟩
    · rintro ⟨k, hk, hhas⟩
      rcases (hmem k).1 hk with hexact | ⟨-, -, t, ht, hle⟩
      · refine ⟨k, hexact, k, hhas, ?_⟩
        rw [EditDistance.distance_self]
        exact h.nonneg
      · exact ⟨t, ht, k, hhas, hle⟩
    · rintro ⟨t, ht, u, hhas, hle⟩
      have hu := h.mirrors.mem_keys_of_has hfind hhas
      refine ⟨u, (hmem u).2 ?_, hhas⟩
      by_cases hpos : 0 < o.maxDistance.toInt
      · exact .inr ⟨hpos, hu, t, ht, hle⟩
      · -- without a distance only the term itself is within it
        have hzero : EditDistance.distance (Utf8.decodeLossy t) (Utf8.decodeLossy u) = 0 := by omega
        have heq : t = u := Utf8.eq_of_decodeLossy_eq (h.isValid_of_mem_expand hterm ht)
          (h.isValid_of_mem_keys hu) (EditDistance.eq_of_distance_eq_zero hzero)
        exact .inl (heq ▸ ht)

/-- **The documents of a beginning are those with a term that has it.** -/
theorem lists_matchBeginning (start : Bytes) :
    ∃ ms, s.matchBeginning o start = .ok ms ∧ Matches.Lists ms
      (c.Where fun fields ↦ Corpus.HasBeginning s.analyzer o fields start) := by
  obtain ⟨lists, hlists, hall⟩ :=
    h.lists_matchTerms (s.index.termsBeginning start) (fun term ↦ term) fun _ ↦ 1
  refine ⟨.uniteAll lists, ?_, hall.congr fun id ↦ exists_congr fun fields ↦
    and_congr_right fun hfind ↦ ?_⟩
  · rw [matchBeginning]
    rw [hlists]
    rfl
  · constructor
    · rintro ⟨u, hu, hhas⟩
      exact ⟨u, hhas, (Index.mem_termsBeginning.1 hu).2⟩
    · rintro ⟨u, hhas, hstart⟩
      exact ⟨u, Index.mem_termsBeginning.2 ⟨h.mirrors.mem_keys_of_has hfind hhas, hstart⟩, hhas⟩

end Searcher.Serves

end Concordance
