import Concordance.Proofs.ExplainedMatches
import Concordance.Proofs.SoundMatches
import Concordance.Text.Table

/-!
# Words found by their beginning

The beginning of a word that a wildcard asks for is analyzed as if it were a word. If it is one, of
letters and digits, analysis leaves its characters as they are, since the beginning of a term is in
lower case already (`Analyzer.analyze_beginning`). But analysis also looks at the length of a word
and at the stop words, and there the beginning stands for itself: a beginning that would be no term
as a word is no beginning of anything, although it may be that of a term of normal length.

So a document with a term is found by a beginning of it exactly if the analyzer would admit the
beginning as a word (`Searcher.evaluate_beginning`).
-/

namespace Concordance

/-! ### Letters and digits -/

namespace Orthography

variable {o : Orthography} {cs : List Char}

/-- Letters and digits make one word, as far as an orthography breaks texts. -/
def IsWord (o : Orthography) (cs : List Char) : Prop :=
  o.boundaries (encode cs) = [⟨(encode cs).length, true⟩]

instance (o : Orthography) (cs : List Char) : Decidable (o.IsWord cs) :=
  inferInstanceAs (Decidable (_ = _))

/-- What is one word is the only word in it. -/
theorem IsWord.words (h : o.IsWord cs) : o.words (encode cs) = [encode cs] := by
  rw [Orthography.words, h, wordsFrom, if_pos rfl, wordsFrom, Nat.sub_zero, List.take_length]

/-- What is in lower case and consists of letters and digits is kept as it is. -/
theorem termChars_encode (hletters : ∀ c ∈ cs, o.isAlphanumeric c = true)
    (hlower : o.lower cs = cs) :
    o.termChars (encode cs) = cs := by
  rw [termChars, Utf8.decodeLossy_encode, hlower, List.filter_eq_self]
  intro c hc
  rw [isTermChar, hletters c hc, Bool.true_or]

end Orthography

/-! ### Analysis of a beginning -/

namespace Analyzer

variable {a : Analyzer} {start : List Char}

/-- The analyzer admits a word of given characters as a term, as far as its least length and the
stop words go. -/
def AdmitsWord (a : Analyzer) (cs : List Char) : Prop :=
  a.minLength ≤ cs.length ∧ ¬ (a.dropStopWords = true ∧ stopWords.contains (encode cs) = true)

instance (a : Analyzer) (cs : List Char) : Decidable (a.AdmitsWord cs) :=
  inferInstanceAs (Decidable (_ ∧ _))

/-- What is asked for by a beginning in lower case: the beginning itself, if it is admitted as a
word. -/
theorem term?_beginning (hne : start ≠ [])
    (hletters : ∀ c ∈ start, a.orthography.isAlphanumeric c = true)
    (hlower : a.orthography.lower start = start) (hlength : start.length ≤ a.maxLength) :
    a.term? false (encode start) = if a.AdmitsWord start then some (encode start) else none := by
  have hkept := Orthography.termChars_encode hletters hlower
  have hself : (a.stemmer.elim (encode start) fun s ↦
      if false = true then s.stem (encode start) else encode start) = encode start := by
    cases a.stemmer <;> rfl
  refine Option.ext fun term ↦ ?_
  rw [term?_eq_some_iff, hkept]
  dsimp only
  rw [hself, Option.ite_none_right_eq_some, Option.some.injEq]
  constructor
  · rintro ⟨⟨-, hmin, -⟩, hstop, -, rfl⟩
    exact ⟨⟨hmin, hstop⟩, rfl⟩
  · rintro ⟨⟨hmin, hstop⟩, rfl⟩
    exact ⟨⟨List.length_eq_zero_iff.not.2 hne, hmin, hlength⟩, hstop, Utf8.encode_ne_nil hne, rfl⟩

/-- **A beginning in lower case is analyzed as the word that it is**: to itself if it is admitted,
and to nothing if it is not. -/
theorem analyze_beginning (hne : start ≠ []) (hword : a.orthography.IsWord start)
    (hletters : ∀ c ∈ start, a.orthography.isAlphanumeric c = true)
    (hlower : a.orthography.lower start = start) (hlength : start.length ≤ a.maxLength) :
    a.analyze false (encode start) =
      if a.AdmitsWord start then [⟨encode start, 0, []⟩] else [] := by
  rw [analyze, hword.words, tokensFrom, tokensFrom, term?_beginning hne hletters hlower hlength]
  by_cases hadmitted : a.AdmitsWord start
  · rw [if_pos hadmitted, if_pos hadmitted]
  · rw [if_neg hadmitted, if_neg hadmitted]

/-- **The beginnings of a token are their own lower case**, and not too long, if there is no
stemmer. -/
theorem lower_beginning (hstemmer : a.stemmer = none) {text field : Bytes} {token : Token}
    (htoken : token ∈ a.tokens text field) (hstart : start <+: Utf8.decodeLossy token.text) :
    start.length ≤ a.maxLength ∧ a.orthography.lower start = start ∧
      encode start <+: token.text := by
  obtain ⟨word, -, hterm⟩ := exists_of_mem_tokensFrom htoken
  obtain ⟨⟨-, -, hmax⟩, -, -, heq⟩ := term?_eq_some_iff.1 hterm
  rw [hstemmer] at heq
  have heq : token.text = encode (a.orthography.termChars word) := heq
  rw [heq, Utf8.decodeLossy_encode] at hstart
  refine ⟨hstart.length_le.trans hmax, ?_, ?_⟩
  · exact a.orthography.settled _ start (hstart.sublist.trans List.filter_sublist)
  · obtain ⟨rest, hrest⟩ := hstart
    exact ⟨encode rest, by rw [heq, ← hrest, encode, encode, encode, List.flatMap_append]⟩

end Analyzer

/-! ### The search for a beginning -/

namespace Searcher

/-- What a search for a beginning in lower case comes to, by whether the beginning is admitted. -/
theorem matches?_beginning {s : Searcher} {o : SearchOptions} (hcancelled : o.cancelled = false)
    (position : Nat) {start : List Char} (hne : start ≠ [])
    (hword : s.analyzer.orthography.IsWord start)
    (hletters : ∀ c ∈ start, s.analyzer.orthography.isAlphanumeric c = true)
    (hlower : s.analyzer.orthography.lower start = start)
    (hlength : start.length ≤ s.analyzer.maxLength) :
    s.matches? o (.wildcard position (encode start)) =
      if s.analyzer.AdmitsWord start then s.matchBeginning o (encode start) else .ok [] := by
  rw [matches?_wildcard hcancelled, matchWildcard,
    Analyzer.analyze_beginning hne hword hletters hlower hlength]
  by_cases hadmitted : s.analyzer.AdmitsWord start
  · rw [if_pos hadmitted, if_pos hadmitted]
  · rw [if_neg hadmitted, if_neg hadmitted]

/-- **A document is found by the beginnings of its terms that the analyzer admits as words.** Let
there be no stemmer, and a token in a field of a document that counts. The search for a beginning of
it that consists of letters and digits succeeds, whatever the history of the index is. If the
analyzer does not admit the beginning as a word, nothing is found; if it does, the document is,
unless what begins with it occurs so often each time that 32 bits do not tell it from nothing. -/
theorem evaluate_beginning {s : Searcher} {history : List Move}
    (hindex : s.index = Index.atEnd s.analyzer history) (hstemmer : s.analyzer.stemmer = none)
    {o : SearchOptions} (hcancelled : o.cancelled = false) {id field text : Bytes}
    {fields : Dict Bytes} (hfind : (Corpus.atEnd history).find? id = some fields)
    (htext : fields.find? field = some text) (hadmits : o.admits field = true) {token : Token}
    (htoken : token ∈ s.analyzer.tokens text field) {start : List Char} (hne : start ≠ [])
    (hstart : start <+: Utf8.decodeLossy token.text)
    (hword : s.analyzer.orthography.IsWord start)
    (hletters : ∀ c ∈ start, s.analyzer.orthography.isAlphanumeric c = true) (position : Nat) :
    ∃ ranking, s.evaluate o (.wildcard position (encode start)) = .ok ranking ∧
      (¬ s.analyzer.AdmitsWord start → ranking = []) ∧
      (id ∈ ranking.map (·.doc) ↔ s.analyzer.AdmitsWord start ∧
        ∃ u, encode start <+: u ∧ Corpus.Counts s.analyzer o fields u) ∧
      (Corpus.size s.analyzer fields < 2 ^ 32 →
        (id ∈ ranking.map (·.doc) ↔ s.analyzer.AdmitsWord start)) := by
  have hmirrors : s.index.Mirrors s.analyzer (Corpus.atEnd history) :=
    hindex ▸ (Index.reflects_atEnd s.analyzer history).mirrors
  obtain ⟨hlength, hlower, hprefix⟩ := Analyzer.lower_beginning hstemmer htoken hstart
  have hmatches := matches?_beginning hcancelled position hne hword hletters hlower hlength
  by_cases hadmitted : s.analyzer.AdmitsWord start
  · rw [if_pos hadmitted] at hmatches
    obtain ⟨ms, hok, hordered⟩ := exists_matchBeginning (o := o) hmirrors.inOrder (encode start)
    have hmem : id ∈ ms.ranked.map (·.doc) ↔
        ∃ u, encode start <+: u ∧ Corpus.Counts s.analyzer o fields u := by
      rw [(ms.ranked_perm.map _).mem_iff, (tells_matchBeginning hmirrors hok).mem_iff]
      exact Corpus.where_iff hfind
    refine ⟨ms.ranked, evaluate_of_ordered rfl (hmatches.trans hok) hordered,
      absurd hadmitted, hmem.trans (and_iff_right hadmitted).symm, fun hsize ↦ ?_⟩
    -- the token itself counts
    exact iff_of_true (hmem.2 ⟨token.text, hprefix, (Corpus.counts_iff hsize).2
      ⟨field, text, htext, hadmits, token, htoken, rfl⟩⟩) hadmitted
  · rw [if_neg hadmitted] at hmatches
    have hnil : Matches.ranked [] = [] := List.perm_nil.1 (Matches.ranked_perm [])
    refine ⟨[], hnil ▸ evaluate_of_ordered rfl hmatches .nil, fun _ ↦ rfl, ?_, fun _ ↦ ?_⟩
    · exact iff_of_false List.not_mem_nil fun h ↦ hadmitted h.1
    · exact iff_of_false List.not_mem_nil hadmitted

/-- A word by three of its beginnings: the first is too short to be a word, and the second is a stop
word. -/
theorem evaluate_beginning_stop_word :
    let a : Analyzer := { minLength := 3, dropStopWords := true }
    let d : Document := ⟨utf8 "1", .ofList [(utf8 "title", utf8 "Theory")]⟩
    let history : List Move := [.add [d]]
    let s : Searcher := ⟨Index.atEnd a history, a, ⟨[]⟩, .tfidf, 0.5⟩
    ∃ ranking, s.evaluate {} (.wildcard 0 (utf8 "th")) = .ok [] ∧
      s.evaluate {} (.wildcard 0 (utf8 "the")) = .ok [] ∧
      s.evaluate {} (.wildcard 0 (utf8 "theo")) = .ok ranking ∧ utf8 "1" ∈ ranking.map (·.doc) := by
  intro a d history s
  have hindex : s.index = Index.atEnd s.analyzer history := by dsimp only [s]
  have hfind : (Corpus.atEnd history).find? (utf8 "1") = some d.fields := by decide +kernel
  have htext : d.fields.find? (utf8 "title") = some (utf8 "Theory") := by decide +kernel
  have htoken : ⟨utf8 "theory", 0, utf8 "title"⟩ ∈
      s.analyzer.tokens (utf8 "Theory") (utf8 "title") := by decide +kernel
  have hsearch := fun (start : List Char) (hne : start ≠ []) hstart
      (hword : s.analyzer.orthography.IsWord start)
      (hletters : (start.all s.analyzer.orthography.isAlphanumeric) = true) ↦
    evaluate_beginning hindex rfl (o := {}) rfl hfind htext rfl htoken hne hstart hword
      (List.all_eq_true.1 hletters) 0
  have hsize : Corpus.size s.analyzer d.fields < 2 ^ 32 := by decide +kernel
  obtain ⟨short, hshort, hnone, -, -⟩ :=
    hsearch ['t', 'h'] (by decide) (by decide +kernel) (by decide +kernel) (by decide)
  obtain ⟨stop, hstop, hnone', -, -⟩ :=
    hsearch ['t', 'h', 'e'] (by decide) (by decide +kernel) (by decide +kernel) (by decide)
  obtain ⟨ranking, hok, -, -, hfound⟩ :=
    hsearch ['t', 'h', 'e', 'o'] (by decide) (by decide +kernel) (by decide +kernel) (by decide)
  rw [hnone (by decide +kernel)] at hshort
  rw [hnone' (by decide +kernel)] at hstop
  exact ⟨ranking, hshort, hstop, hok, (hfound hsize).2 (by decide +kernel)⟩

end Searcher

end Concordance
