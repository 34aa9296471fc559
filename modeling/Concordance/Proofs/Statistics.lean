import Concordance.Proofs.Conjunctions
import Concordance.Proofs.Explanations
import Concordance.Proofs.PhraseMatches
import Concordance.Proofs.Ranking
import Concordance.Proofs.Tallies

/-!
# Scores are made of what can be counted

A score is a formula of a few numbers: in how many documents a term occurs and how many documents
there are, how often it occurs in the one that is scored, how many tokens this one has and how many
a document has on average. A search takes them from the lengths of lists, from entries and from a
running total. Here they are counted in the texts (`Corpus.termStatistics`,
`Corpus.documentStatistics`), and on an index with the right tallies a search comes to the same.

So the scores of a word and of a phrase say what the texts say, whatever has happened to the index
(`Searcher.evaluate_statistics`). The words of 32 and 64 bits in which the numbers are given to the
formula are those of the formula.
-/

namespace Concordance

variable {a : Analyzer} {c : Corpus} {o : SearchOptions} {id term : Bytes} {fields : Dict Bytes}

/-! ### What is counted in the texts -/

namespace Corpus

/-- The number of documents in which a term occurs, in any field. -/
def documentFrequency (a : Analyzer) (c : Corpus) (term : Bytes) : Nat :=
  c.values.countP fun fields ↦ (terms a fields).contains term

/-- The number of tokens of a document in the fields that count. -/
def admittedSize (a : Analyzer) (o : SearchOptions) (fields : Dict Bytes) : Nat :=
  (((fieldTokens a fields).filter fun f ↦ o.admits f.1).map fun f ↦ f.2.length).sum

/-- The mean number of tokens of a document, `0` if there is none. -/
def averageLength (a : Analyzer) (c : Corpus) : Float :=
  if c.values = [] then 0
  else (c.tokenTotal a).toUInt64.toFloat / c.values.length.toUInt64.toFloat

/-- What is counted for a term in all documents. -/
def termStatistics (a : Analyzer) (c : Corpus) (term : Bytes) : TermStatistics :=
  ⟨(c.documentFrequency a term).toUInt64, c.values.length.toUInt64⟩

/-- What is counted in one document, for a term or a phrase that occurs so often in it. -/
def documentStatistics (a : Analyzer) (c : Corpus) (o : SearchOptions) (fields : Dict Bytes)
    (occurrences : Nat) : DocumentStatistics :=
  ⟨occurrences.toUInt32, (admittedSize a o fields).toUInt32, c.averageLength a⟩

/-- **A term has as many postings as there are documents in which it occurs.** -/
theorem length_postings (a : Analyzer) (c : Corpus) (term : Bytes) :
    (c.postings a term).length = c.documentFrequency a term := by
  have hsome : ∀ d : Bytes × Dict Bytes,
      (posting? a term d.1 d.2).isSome = (terms a d.2).contains term := by
    intro d
    rw [Bool.eq_iff_iff, Option.isSome_iff_exists, Dict.contains_iff]
    simp only [posting?_eq_some_iff, exists_eq_left]
    rfl
  rw [postings, List.length_filterMap_eq_countP, documentFrequency, Dict.values, List.countP_map]
  exact List.countP_congr fun d _ ↦ by rw [hsome d]; rfl

/-- The tokens of an entry in the fields that count. -/
theorem lengthWhere_entry (a : Analyzer) (o : SearchOptions) (fields : Dict Bytes) :
    (entry a fields).lengthWhere o.admits = (admittedSize a o fields).toUInt32 := by
  have hentries : (entry a fields).fieldLengths.entries =
      (fieldTokens a fields).map fun f ↦ (f.1, f.2.length.toUInt32) := by
    rw [fieldTokens, List.map_map]
    rfl
  rw [DocumentEntry.lengthWhere, hentries, List.filter_map, List.map_map]
  exact total_map_toUInt32 (fun f : Bytes × List Token ↦ f.2.length) _

/-- If no field is named, all of them count. -/
theorem admittedSize_of_isEmpty (h : o.fields.isEmpty = true) :
    admittedSize a o fields = size a fields := by
  rw [admittedSize, List.filter_eq_self.2 fun f _ ↦ Searcher.admits_of_isEmpty h f.1]
  rfl

end Corpus

/-! ### What is taken from an index -/

namespace Index.Tallies

variable {s : Searcher} (h : s.index.Tallies s.analyzer c)

include h

theorem size_documents : s.index.documents.size = c.values.length := by
  rw [h.entries, Dict.size, Dict.values, List.length_map]
  exact List.length_map _

theorem averageLength_eq : s.index.averageLength = c.averageLength s.analyzer := by
  have hempty : s.index.documents.isEmpty = true ↔ c.values = [] := by
    rw [Dict.isEmpty, List.isEmpty_iff, ← List.length_eq_zero_iff, ← List.length_eq_zero_iff,
      ← h.size_documents]
    rfl
  rw [averageLength, Corpus.averageLength, h.size_documents, h.tokens]
  exact ite_congr (propext hempty) (fun _ ↦ rfl) fun _ ↦ rfl

/-- **What is known of a term** is what can be counted in the texts. -/
theorem termStatistics_eq (term : Bytes) :
    s.termStatistics (s.index.postings term) = c.termStatistics s.analyzer term := by
  rw [Searcher.termStatistics, h.mirrors.postings, Corpus.length_postings, h.size_documents]
  rfl

/-- **What is known of a document** is what can be counted in its texts. -/
theorem documentStatistics_eq (hfind : c.find? id = some fields) (occurrences : Nat) :
    s.documentStatistics o id occurrences.toUInt32 =
      .ok (c.documentStatistics s.analyzer o fields occurrences) := by
  have hentry : s.index.documents.find? id = some (Corpus.entry s.analyzer fields) := by
    rw [h.entries, Dict.find?_mapValues, hfind]
    rfl
  have hlength : s.documentLength o id =
      .ok (Corpus.admittedSize s.analyzer o fields).toUInt32 := by
    rw [Searcher.documentLength, hentry]
    show Except.ok (if o.fields.isEmpty = true then _ else _) = _
    split
    · rename_i hall
      rw [Corpus.length_entry, Corpus.admittedSize_of_isEmpty hall]
    · rw [Corpus.lengthWhere_entry]
  rw [Searcher.documentStatistics, hlength, h.averageLength_eq]
  rfl

end Index.Tallies

/-! ### The scores of a search -/

namespace Searcher

variable {s : Searcher} {m : Match} {ms : Matches} {weight : Float}

/-- A word without synonyms and at no distance stands for itself alone, with full weight. -/
theorem matchExpansion_alone (hclass : s.synonyms.classOf term = none)
    (hdistance : o.maxDistance = 0) :
    s.matchExpansion o term = s.matchTerm o term 1 := by
  have hexpand : s.synonyms.expand term = .ofList [term] := by
    rw [Synonyms.expand, hclass]
    rfl
  have hexpansion : s.expansion o term = .ok (.ofList [(term, 1)]) := by
    rw [expansion, hexpand, hdistance]
    rfl
  rw [matchExpansion, hexpansion]
  show (do
    let lists ← [(term, (1 : Float))].mapM fun e ↦ s.matchTerm o e.1 e.2
    return Matches.uniteAll lists : Except Error Matches) = _
  rw [List.mapM_cons]
  cases s.matchTerm o term 1 with
  | error e => rfl
  | ok ms =>
    show Except.ok (Matches.uniteAll [ms]) = .ok ms
    rw [Matches.uniteAll]

section

variable (h : s.index.Tallies s.analyzer c)

include h

/-- **The score of a term** is its weight times what the formula makes of the counts. -/
theorem score_of_matchTerm (hok : s.matchTerm o term weight = .ok ms) (hm : m ∈ ms) :
    ∃ fields, c.find? m.doc = some fields ∧
      m.score = weight * s.scorer.score (c.termStatistics s.analyzer term)
        (c.documentStatistics s.analyzer o fields (Corpus.count s.analyzer o fields term)) := by
  obtain ⟨p, hp, hmatch⟩ := (Passes.mem_filterMapM_iff hok).1 hm
  obtain ⟨⟨d, hd, hdoc, hscore⟩, -⟩ := eq_of_matchPosting hmatch
  rw [h.mirrors.postings] at hp
  obtain ⟨fields, hfind, hposting⟩ := Corpus.mem_postings.1 hp
  rw [frequency_posting hposting, h.documentStatistics_eq hfind] at hd
  refine ⟨fields, hdoc ▸ hfind, ?_⟩
  rw [hscore, h.termStatistics_eq, Except.ok.inj hd]

/-- **The score of a phrase** adds up what the formula makes of the counts for each of its tokens,
with the occurrences of the phrase. -/
theorem score_of_matchPhrase {tokens : List Token} (hok : s.matchPhrase o tokens = .ok ms)
    (hm : m ∈ ms) : ∃ fields, c.find? m.doc = some fields ∧
      m.score = tokens.foldl (fun sum t ↦
        sum + s.scorer.score (c.termStatistics s.analyzer t.text)
          (c.documentStatistics s.analyzer o fields
            (Corpus.phraseCount s.analyzer o fields tokens))) 0 := by
  cases tokens with
  | nil =>
    rw [← Except.ok.inj hok] at hm
    exact absurd hm List.not_mem_nil
  | cons first others =>
    obtain ⟨⟨p, ps⟩, hx, hmatch⟩ := exists_of_mem_matchPhrase hok hm
    have hterm : first.text ∈ (ByteSet.ofList ((first :: others).map (·.text))).toList :=
      ByteSet.mem_toList_ofList.2 List.mem_cons_self
    obtain ⟨⟨d, hd, hdoc, hscore⟩, -⟩ := eq_of_matchPhrasePosting ⟨_, hterm⟩ hmatch
    -- the walk comes to documents that are there, and to their own postings
    have hp := ((mem_commonPostings_iff h.mirrors.inOrder).1 hx).1
    rw [h.mirrors.postings] at hp
    obtain ⟨fields, hfind, -⟩ := Corpus.mem_postings.1 hp
    obtain ⟨hlead, hothers⟩ :=
      (mem_commonPostings_holds h.mirrors.inOrder (h.mirrors.holds hfind)).1 ⟨hx, rfl⟩
    rw [total_phraseFields hlead hothers, h.documentStatistics_eq hfind] at hd
    refine ⟨fields, hdoc ▸ hfind, ?_⟩
    rw [hscore, ← List.map_cons (f := fun t : Token ↦ s.index.postings t.text), List.foldl_map,
      ← Except.ok.inj hd]
    simp only [h.termStatistics_eq]

end

/-! ### Whole searches -/

/-- The scores of a query are made of the texts: the search succeeds if it is not called off, and
each result is a document that is there, with the score of its fields. -/
structure IsScoredBy (s : Searcher) (o : SearchOptions) (c : Corpus) (q : Query)
    (score : Dict Bytes → Float) : Prop where
  succeeds : o.cancelled = false → ∃ ranking, s.evaluate o q = .ok ranking
  scored : ∀ ranking, s.evaluate o q = .ok ranking → ∀ m ∈ ranking,
    ∃ fields, c.find? m.doc = some fields ∧ m.score = score fields

/-- The score of a result is that of the fields of its document. -/
theorem IsScoredBy.score_eq {q : Query} {score : Dict Bytes → Float} {ranking : Matches}
    (h : s.IsScoredBy o c q score) (hok : s.evaluate o q = .ok ranking) (hm : m ∈ ranking)
    (hfind : c.find? m.doc = some fields) : m.score = score fields := by
  obtain ⟨fields', hfind', hscore⟩ := h.scored ranking hok m hm
  rw [hscore, Option.some.inj (hfind'.symm.trans hfind)]

/-- Ranking changes no score. -/
theorem isScoredBy_of_matches? {q : Query} {score : Dict Bytes → Float}
    {found : Except Error Matches} (hrule : q.checkNegation false = .ok ())
    (hmatches : o.cancelled = false → s.matches? o q = found)
    (hfound : ∃ ms, found = .ok ms ∧ ms.Ordered)
    (hscored : ∀ ms, found = .ok ms → ∀ m ∈ ms,
      ∃ fields, c.find? m.doc = some fields ∧ m.score = score fields) :
    s.IsScoredBy o c q score where
  succeeds hcancelled := by
    obtain ⟨ms, hok, hordered⟩ := hfound
    exact ⟨ms.ranked, evaluate_of_ordered hrule ((hmatches hcancelled).trans hok) hordered⟩
  scored ranking hok m hm := by
    obtain ⟨ms, hms, -, rfl⟩ := exists_of_evaluate hok
    have hcancelled := not_cancelled_of_matches? hms
    exact hscored ms ((hmatches hcancelled).symm.trans hms) m (ms.ranked_perm.mem_iff.1 hm)

end Searcher

end Concordance
