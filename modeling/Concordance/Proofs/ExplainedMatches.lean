import Concordance.Proofs.Explained
import Concordance.Proofs.Explanations
import Concordance.Proofs.NearBounds
import Concordance.Proofs.Ranking
import Concordance.Proofs.Reflection
import Concordance.Proofs.SoundMatches

/-!
# Explanations are exact

What is found for a query are the documents that answer it, and what the explanation of a match says
is what the query names for that document (`Searcher.Tells`). For a term of the index, and for a
phrase, that is read off the postings, which are those of the texts. The merges along the tree then
do to the properties and relations what the clauses of `Query.Answers` and `Query.Explains` say: an
intersection has what both sides name of a document that answers both, a difference names what was
named before, and a union what any of its lists names.

No bound on the documents, the distance or the synonyms is needed for that
(`Searcher.evaluate_explains`).
-/

namespace Concordance

/-! ### Lists of matches -/

/-- **What a match list tells of a corpus**: its documents are those with a property of their texts,
and what its explanations name, if that is asked for, is a relation of their texts. -/
def Matches.Tells (ms : Matches) (explain : Bool) (c : Corpus) (p : Dict Bytes → Prop)
    (r : Dict Bytes → Bytes → Bytes → Prop) : Prop :=
  ms.Shows (c.Where p) fun id field term ↦
    explain = true ∧ c.Where (fun fields ↦ p fields ∧ r fields field term) id

namespace Matches

variable {a b ms : Matches} {explain : Bool} {c : Corpus} {p q : Dict Bytes → Prop}
  {r r' : Dict Bytes → Bytes → Bytes → Prop}

/-- Only the documents of the corpus matter, and of the relation those with the property. -/
theorem Tells.congr (h : ms.Tells explain c p r)
    (hp : ∀ id fields, c.find? id = some fields → (p fields ↔ q fields))
    (hr : ∀ id fields, c.find? id = some fields → q fields → ∀ field term,
      r fields field term ↔ r' fields field term) :
    ms.Tells explain c q r' := by
  refine Shows.congr h (fun id ↦ ?_) fun id field term ↦ and_congr_right fun _ ↦ ?_
  · exact exists_congr fun fields ↦ and_congr_right fun hfind ↦ hp id fields hfind
  · refine exists_congr fun fields ↦ and_congr_right fun hfind ↦ ?_
    exact (and_congr_left' (hp id fields hfind)).trans
      (and_congr_right fun hq ↦ hr id fields hfind hq field term)

/-- Nothing is told if no document has the property. -/
theorem tells_nil (hp : ∀ id fields, c.find? id = some fields → ¬ p fields) :
    Tells [] explain c p r :=
  shows_nil.congr (fun id ↦ iff_of_false not_false fun ⟨fields, hfind, h⟩ ↦ hp id fields hfind h)
    fun id _ _ ↦ iff_of_false not_false fun ⟨_, fields, hfind, h, _⟩ ↦ hp id fields hfind h

/-- What is told by a list whose matches say what there is in their documents. -/
theorem Lists.tells (h : ms.Lists (c.Where p)) (hsaid : ∀ m ∈ ms, ∃ fields,
    c.find? m.doc = some fields ∧
      m.explanation.Says fun field term ↦ explain = true ∧ r fields field term) :
    ms.Tells explain c p r := by
  have hshows := h.shows (r := fun id field term ↦
    explain = true ∧ c.Where (fun fields ↦ r fields field term) id) fun m hm ↦ by
      obtain ⟨fields, hfind, hsaid⟩ := hsaid m hm
      refine hsaid.congr fun field term ↦ and_congr_right fun _ ↦ ?_
      rw [Corpus.where_iff hfind]
  exact hshows.congr (fun _ ↦ Iff.rfl) fun _ _ _ ↦
    and_left_comm.trans (and_congr_right fun _ ↦ Corpus.where_and.symm)

theorem Tells.intersect (ha : a.Tells explain c p r) (hb : b.Tells explain c q r') :
    (intersect a b).Tells explain c (fun fields ↦ p fields ∧ q fields) fun fields field term ↦
      r fields field term ∨ r' fields field term := by
  refine (Shows.intersect ha hb).congr (fun id ↦ Corpus.where_and.symm) fun id field term ↦ ?_
  simp only [Corpus.where_and, Corpus.where_or]
  tauto

theorem Tells.subtract (ha : a.Tells explain c p r) (hb : b.Tells explain c q r') :
    (subtract a b).Tells explain c (fun fields ↦ p fields ∧ ¬ q fields) r := by
  refine (Shows.subtract ha hb.toLists).congr (fun id ↦ Corpus.where_and_not.symm)
    fun id field term ↦ ?_
  rw [Corpus.where_and, Corpus.where_and, Corpus.where_and_not]
  tauto

/-- A balanced union tells what its lists tell. -/
theorem tells_uniteAll {α : Type} {l : List α} {lists : List Matches} {p : α → Dict Bytes → Prop}
    {r : α → Dict Bytes → Bytes → Bytes → Prop}
    (h : List.Forall₂ (fun x ms ↦ Tells ms explain c (p x) (r x)) l lists) :
    (uniteAll lists).Tells explain c (fun fields ↦ ∃ x ∈ l, p x fields) fun fields field term ↦
      ∃ x ∈ l, p x fields ∧ r x fields field term := by
  refine (shows_uniteAll h).congr (fun id ↦ Corpus.where_exists.symm) fun id field term ↦ ?_
  constructor
  · rintro ⟨x, hx, hexplain, fields, hfind, hp, hr⟩
    exact ⟨hexplain, fields, hfind, ⟨x, hx, hp⟩, x, hx, hp, hr⟩
  · rintro ⟨hexplain, fields, hfind, -, x, hx, hp, hr⟩
    exact ⟨x, hx, hexplain, fields, hfind, hp, hr⟩

end Matches

/-! ### One term of a document -/

namespace Corpus

variable {a : Analyzer} {o : SearchOptions} {id field term : Bytes} {fields : Dict Bytes}

/-- The hits of a term that count are where the document has it. -/
theorem exists_hits_iff :
    (∃ h ∈ hits a term fields, h.field = field ∧ o.admits field = true) ↔
      HasIn a o fields field term := by
  constructor
  · rintro ⟨h, hh, rfl, hadmits⟩
    obtain ⟨text, htext, hpositions, hne⟩ := mem_hits.1 hh
    rw [hpositions, ne_eq, positions_eq_nil_iff] at hne
    exact ⟨text, htext, hadmits, by simpa using hne⟩
  · rintro ⟨text, htext, hadmits, token, htoken, heq⟩
    have hne : positions term (a.tokens text field) ≠ [] := by
      rw [ne_eq, positions_eq_nil_iff]
      exact fun hall ↦ hall token htoken heq
    exact ⟨⟨field, _⟩, mem_hits.2 ⟨text, htext, rfl, hne⟩, rfl, hadmits⟩

/-- A phrase occurs in a field exactly if it is counted there. -/
theorem hasPhraseIn_iff {first : Token} {others : List Token} :
    HasPhraseIn a o fields field (first :: others) ↔
      ∃ text, fields.find? field = some text ∧ o.admits field = true ∧
        0 < phraseCountIn (a.tokens text field) first others := by
  simp only [HasPhraseIn, exists_tokens_iff, phraseCountIn_pos_iff]

/-- The hits of the first term of a phrase that count, and at which the phrase is counted, are where
the document has it. -/
theorem exists_occurrences_iff {first : Token} {others : List Token} {ps : List Posting}
    (hps : List.Forall₂ (fun t p ↦ posting? a t.text id fields = some p) others ps) :
    (∃ h ∈ hits a first.text fields, h.field = field ∧ o.admits field = true ∧
      0 < Searcher.occurrences h ps (others.map (·.position - first.position))) ↔
        HasPhraseIn a o fields field (first :: others) := by
  rw [hasPhraseIn_iff]
  constructor
  · rintro ⟨⟨field, positions⟩, hh, rfl, hadmits, hpos⟩
    obtain ⟨text, htext, hpositions, -⟩ := mem_hits.1 hh
    rw [show positions = _ from hpositions, Searcher.occurrences_eq hps htext] at hpos
    exact ⟨text, htext, hadmits, hpos⟩
  · rintro ⟨text, htext, hadmits, hpos⟩
    obtain ⟨n, hn, -⟩ := phraseCountIn_pos_iff.1 hpos
    rw [← Searcher.occurrences_eq hps htext] at hpos
    exact ⟨_, mem_hits.2 ⟨text, htext, rfl, List.ne_nil_of_mem hn⟩, rfl, hadmits, hpos⟩

end Corpus

/-! ### What is found -/

namespace Searcher

variable {s : Searcher} {o : SearchOptions} {c : Corpus} {ms : Matches}

/-- **A search tells the truth about a query**: what is found are the documents that answer it, with
the terms that it names for them. -/
def Tells (s : Searcher) (o : SearchOptions) (c : Corpus) (q : Query) : Prop :=
  ∀ ms, s.matches? o q = .ok ms → ms.Tells o.explain c (fun fields ↦ q.Answers s o fields)
    fun fields field term ↦ q.Explains s o fields field term

/-- The terms near one of several have a weight. -/
theorem mem_keys_nearWeights {terms : List Bytes} {weights : Dict Float}
    (h : s.nearWeights o terms = .ok weights) {u : Bytes} :
    u ∈ weights.keys ↔ ∃ t ∈ terms, ∃ near,
      s.index.expandNear t o.maxDistance o.cancelled = .ok near ∧ u ∈ near.toList := by
  refine Passes.inv_of_foldlM_done (fun done weights ↦ u ∈ Dict.keys weights ↔ ∃ t ∈ done, ∃ near,
    s.index.expandNear t o.maxDistance o.cancelled = .ok near ∧ u ∈ near.toList)
    (fun done t before after hinv hstep ↦ ?_) (by simp [Dict.mem_keys_iff]) h
  obtain ⟨found, hfound, hafter⟩ := Passes.bind_eq_ok_iff.1 hstep
  have hnear : s.index.expandNear t o.maxDistance o.cancelled =
      .ok (.ofList (found.map (·.term))) := by
    rw [Index.expandNear, hfound]
    rfl
  rw [← Except.ok.inj hafter, mem_keys_foldl_raise, hinv]
  simp [or_and_right, exists_or, hnear]

/-- **What a term stands for** is what has a weight in its expansion. -/
theorem mem_keys_expansion {term : Bytes} {weights : Dict Float}
    (h : s.expansion o term = .ok weights) {u : Bytes} :
    u ∈ weights.keys ↔ s.StandsFor o term u := by
  have hexact : u ∈ Dict.keys
      (.ofList ((s.synonyms.expand term).toList.map fun t ↦ (t, (1 : Float)))) ↔
        u ∈ (s.synonyms.expand term).toList := by
    rw [Dict.mem_keys_ofList]
    simp
  rw [expansion] at h
  rw [StandsFor]
  split at h
  · rename_i hpos
    obtain ⟨near, hnear, h⟩ := Passes.bind_eq_ok_iff.1 h
    have hkeys : near.entries.map (·.1) = near.keys := rfl
    rw [← Except.ok.inj h, mem_keys_foldl_raise, hexact, hkeys, mem_keys_nearWeights hnear]
    simp only [hpos, true_and]
  · rename_i hpos
    rw [← Except.ok.inj h, hexact]
    simp only [hpos, false_and, or_false]

/-! ### Words, wildcards and phrases -/

section Mirrors

variable (h : s.index.Mirrors s.analyzer c)

include h

/-- **A term of the index** is found where it counts, and named for the fields that have it. -/
theorem tells_matchTerm {term : Bytes} {weight : Float} (hok : s.matchTerm o term weight = .ok ms) :
    ms.Tells o.explain c (fun fields ↦ Corpus.Counts s.analyzer o fields term)
      fun fields field u ↦ Corpus.HasIn s.analyzer o fields field term ∧ u = term := by
  obtain ⟨ms', hok', hlists⟩ := h.lists_matchTerm (o := o) term weight
  obtain rfl := Except.ok.inj (hok.symm.trans hok')
  refine hlists.tells fun m hm ↦ ?_
  -- the match comes from a posting, and the fields of that are the hits of the document
  obtain ⟨p, hp, hmatch⟩ := (Passes.mem_filterMapM_iff hok).1 hm
  obtain ⟨fields, hfind, hposting⟩ := Corpus.mem_postings.1 (h.postings term ▸ hp)
  obtain ⟨⟨-, -, hdoc, -⟩, hsaid⟩ := eq_of_matchPosting hmatch
  have hfields : p.fields = Corpus.hits s.analyzer term fields := by
    rw [(Corpus.posting?_eq_some_iff.1 hposting).1]
  refine ⟨fields, hdoc ▸ hfind, hsaid.congr fun field u ↦ and_congr_right fun _ ↦ ?_⟩
  rw [hfields, Corpus.exists_hits_iff]

/-- Several terms of the index, united. -/
theorem tells_matchTerms {α : Type} {l : List α} (term : α → Bytes) (weight : α → Float)
    {lists : List Matches} (hok : (l.mapM fun x ↦ s.matchTerm o (term x) (weight x)) = .ok lists) :
    (Matches.uniteAll lists).Tells o.explain c
      (fun fields ↦ ∃ x ∈ l, Corpus.Counts s.analyzer o fields (term x)) fun fields field u ↦
        ∃ x ∈ l, Corpus.Counts s.analyzer o fields (term x) ∧
          Corpus.HasIn s.analyzer o fields field (term x) ∧ u = term x :=
  Matches.tells_uniteAll ((Passes.mapM_eq_ok_iff.1 hok).imp fun _ _ ↦ tells_matchTerm h)

/-- **What a term stands for.** -/
theorem tells_matchExpansion {term : Bytes} (hok : s.matchExpansion o term = .ok ms) :
    ms.Tells o.explain c
      (fun fields ↦ ∃ u, s.StandsFor o term u ∧ Corpus.Counts s.analyzer o fields u)
      fun fields field u ↦ s.StandsFor o term u ∧ Corpus.HasIn s.analyzer o fields field u ∧
        Corpus.Counts s.analyzer o fields u := by
  obtain ⟨weights, hweights, hok⟩ := Passes.bind_eq_ok_iff.1 hok
  obtain ⟨lists, hlists, hok⟩ := Passes.bind_eq_ok_iff.1 hok
  have hkeys : ∀ {p : Bytes → Prop},
      (∃ e ∈ weights.entries, p e.1) ↔ ∃ u, s.StandsFor o term u ∧ p u := by
    intro p
    simp only [← mem_keys_expansion hweights, Dict.keys, List.mem_map]
    constructor
    · rintro ⟨e, he, hp⟩
      exact ⟨e.1, ⟨e, he, rfl⟩, hp⟩
    · rintro ⟨-, ⟨e, he, rfl⟩, hp⟩
      exact ⟨e, he, hp⟩
  rw [← Except.ok.inj hok]
  refine (tells_matchTerms (α := Bytes × Float) h (·.1) (·.2) hlists).congr
    (fun id fields _ ↦ hkeys)
    fun id fields _ _ field u ↦ (hkeys (p := fun v ↦ Corpus.Counts s.analyzer o fields v ∧
      Corpus.HasIn s.analyzer o fields field v ∧ u = v)).trans ?_
  constructor
  · rintro ⟨_, hstands, hcounts, hhas, rfl⟩
    exact ⟨hstands, hhas, hcounts⟩
  · rintro ⟨hstands, hhas, hcounts⟩
    exact ⟨u, hstands, hcounts, hhas, rfl⟩

/-- **What begins with given bytes.** -/
theorem tells_matchBeginning {start : Bytes} (hok : s.matchBeginning o start = .ok ms) :
    ms.Tells o.explain c
      (fun fields ↦ ∃ u, start <+: u ∧ Corpus.Counts s.analyzer o fields u)
      fun fields field u ↦ start <+: u ∧ Corpus.HasIn s.analyzer o fields field u ∧
        Corpus.Counts s.analyzer o fields u := by
  obtain ⟨lists, hlists, hok⟩ := Passes.bind_eq_ok_iff.1 hok
  rw [← Except.ok.inj hok]
  refine (tells_matchTerms h (fun term ↦ term) (fun _ ↦ 1) hlists).congr
    (fun id fields hfind ↦ ?_) fun id fields hfind _ field u ↦ ?_
  all_goals simp only [Index.mem_termsBeginning]
  · constructor
    · rintro ⟨u, ⟨-, hstart⟩, hcounts⟩
      exact ⟨u, hstart, hcounts⟩
    · rintro ⟨u, hstart, hcounts⟩
      exact ⟨u, ⟨h.mem_keys_of_has hfind hcounts.has, hstart⟩, hcounts⟩
  · constructor
    · rintro ⟨_, ⟨-, hstart⟩, hcounts, hhas, rfl⟩
      exact ⟨hstart, hhas, hcounts⟩
    · rintro ⟨hstart, hhas, hcounts⟩
      exact ⟨u, ⟨h.mem_keys_of_has hfind hcounts.has, hstart⟩, hcounts, hhas, rfl⟩

/-- **A phrase** is found where it counts, and its terms are named for the fields that have it. -/
theorem tells_matchPhrase {tokens : List Token} (hok : s.matchPhrase o tokens = .ok ms) :
    ms.Tells o.explain c (fun fields ↦ Corpus.CountsPhrase s.analyzer o fields tokens)
      fun fields field u ↦ Query.ExplainsPhrase s o fields field u tokens := by
  cases tokens with
  | nil =>
    rw [← Except.ok.inj hok]
    exact Matches.tells_nil fun _ _ _ hcounts ↦ hcounts (Nat.dvd_zero _)
  | cons first others =>
    obtain ⟨ms', hok', hlists⟩ := h.lists_matchPhrase (o := o) (first :: others)
    obtain rfl := Except.ok.inj (hok.symm.trans hok')
    refine hlists.tells fun m hm ↦ ?_
    -- the match comes from postings of the document, one for each token
    obtain ⟨fields, hfind, hcounts⟩ := (hlists.mem_iff m.doc).1 (List.mem_map_of_mem hm)
    obtain ⟨⟨p, ps⟩, hx, hmatch⟩ := exists_of_mem_matchPhrase hok hm
    obtain ⟨⟨-, -, hdoc, -⟩, hsaid⟩ := eq_of_matchPhrasePosting ⟨first.text, by simp⟩ hmatch
    obtain ⟨hp, hps⟩ := (mem_commonPostings_holds h.inOrder (h.holds hfind)).1 ⟨hx, hdoc.symm⟩
    have hfields : p.fields = Corpus.hits s.analyzer first.text fields := by
      rw [(Corpus.posting?_eq_some_iff.1 hp).1]
    refine ⟨fields, hfind, hsaid.congr fun field u ↦ and_congr_right fun _ ↦ ?_⟩
    rw [hfields, Corpus.exists_occurrences_iff hps, ByteSet.mem_toList_ofList, Query.ExplainsPhrase,
      and_iff_left hcounts]
    exact and_comm

/-- **A word** tells what it stands for, or what has it as a phrase. -/
theorem tells_word (position : Nat) (text : Bytes) : s.Tells o c (.word position text) := by
  intro ms hok
  rw [matches?_word (not_cancelled_of_matches? hok), matchWord] at hok
  simp only [Query.Answers, Query.Explains]
  rcases htokens : s.analyzer.analyze true text with _ | ⟨token, _ | ⟨token', tokens⟩⟩
  all_goals rw [htokens] at hok
  · rw [← Except.ok.inj hok]
    exact Matches.tells_nil fun _ _ _ ↦ id
  · exact tells_matchExpansion h hok
  · exact tells_matchPhrase h hok

/-- A wildcard tells what begins with it, if it is a single word. -/
theorem tells_wildcard (position : Nat) (start : Bytes) :
    s.Tells o c (.wildcard position start) := by
  intro ms hok
  rw [matches?_wildcard (not_cancelled_of_matches? hok), matchWildcard] at hok
  simp only [Query.Answers, Query.Explains]
  rcases htokens : s.analyzer.analyze false start with _ | ⟨token, _ | ⟨token', tokens⟩⟩
  all_goals rw [htokens] at hok
  · rw [← Except.ok.inj hok]
    exact Matches.tells_nil fun _ _ _ ↦ id
  · exact tells_matchBeginning h hok
  · cases hok

theorem tells_phrase (position : Nat) (text : Bytes) (words : List Bytes) :
    s.Tells o c (.phrase position text words) := by
  intro ms hok
  rw [matches?_phrase (not_cancelled_of_matches? hok)] at hok
  simp only [Query.Answers, Query.Explains]
  exact tells_matchPhrase h hok

end Mirrors

/-! ### Trees -/

variable {q : Query} {qs : List Query} {p : Dict Bytes → Prop}
  {r : Dict Bytes → Bytes → Bytes → Prop}

/-- **More operands narrow down what has been found**: it is the documents that answer them as well,
with what they name besides. -/
theorem tells_narrow (hqs : ∀ q ∈ qs, s.Tells o c q.unnegated) {found : Matches}
    (hfound : found.Tells o.explain c p r) (hok : qs.foldlM (s.narrow o) found = .ok ms) :
    ms.Tells o.explain c (fun fields ↦ p fields ∧ ∀ q ∈ qs, q.Answers s o fields)
      fun fields field term ↦ r fields field term ∨ ∃ q ∈ qs, q.Explains s o fields field term := by
  induction qs generalizing found p r with
  | nil =>
    rw [← Except.ok.inj hok]
    exact hfound.congr (fun _ _ _ ↦ by simp) fun _ _ _ _ _ _ ↦ by simp
  | cons q qs ih =>
    obtain ⟨hq, hqs⟩ := List.forall_mem_cons.1 hqs
    simp only [List.forall_mem_cons, List.exists_mem_cons_iff]
    rcases eq_or_ne found [] with rfl | hne
    · -- nothing is left, so no document answers all operands
      have hnone : ∀ id fields, c.find? id = some fields → ¬ p fields := fun id fields hfind hp ↦
        List.not_mem_nil ((hfound.mem_iff id).2 ⟨fields, hfind, hp⟩)
      rw [foldlM_narrow_nil] at hok
      rw [← Except.ok.inj hok]
      exact Matches.tells_nil fun id fields hfind h ↦ hnone id fields hfind h.1
    · rw [List.foldlM_cons, narrow_of_ne_nil hne] at hok
      obtain ⟨next, hnext, hok⟩ := Passes.bind_eq_ok_iff.1 hok
      obtain ⟨more, hmore, hnext⟩ := Passes.bind_eq_ok_iff.1 hnext
      rw [← Except.ok.inj hnext] at hok
      have hmore := hq more hmore
      rcases hsign : q.isNegation with _ | _
      all_goals rw [hsign] at hok
      · rw [Query.unnegated_of_isNegation hsign] at hmore
        exact (ih hqs (hfound.intersect hmore) hok).congr (fun _ _ _ ↦ and_assoc)
          fun _ _ _ _ _ _ ↦ or_assoc
      · refine (ih hqs (hfound.subtract hmore) hok).congr (fun _ fields _ ↦ ?_)
          fun _ fields _ _ field term ↦ ?_
        · rw [Query.answers_of_isNegation hsign]
          exact and_assoc
        · rw [or_iff_right (Query.not_explains_of_isNegation hsign)]

/-- There is nothing to be told of a query with a sign, which is refused. -/
theorem Tells.of_unnegated (h : s.Tells o c q.unnegated) : s.Tells o c q := by
  cases q with
  | neg position operand =>
    intro ms hok
    rw [matches?_neg (not_cancelled_of_matches? hok)] at hok
    cases hok
  | _ => exact h

/-- A conjunction tells what its operands leave, and what they name of it. -/
theorem tells_conj (hqs : ∀ q ∈ qs, s.Tells o c q.unnegated) (position : Nat) :
    s.Tells o c (.conj position qs) := by
  intro ms hok
  have hcancelled := not_cancelled_of_matches? hok
  by_cases hall : ∀ q ∈ qs, q.isNegation = true
  · rw [matches?_conj_of_all hcancelled hall] at hok
    cases hok
  · -- the first operand in turn is told, and the others narrow it down
    obtain ⟨q, rest, hturn, hsign⟩ := Query.exists_inTurn (by simpa using hall)
    have hmem : ∀ {q' : Query}, q' ∈ q :: rest ↔ q' ∈ qs := hturn ▸ Query.mem_inTurn
    rw [matches?_conj hcancelled hturn hsign] at hok
    obtain ⟨first, hfirst, hok⟩ := Passes.bind_eq_ok_iff.1 hok
    have htells := (hqs q (hmem.1 List.mem_cons_self)).of_unnegated first hfirst
    have hrest := fun q' hq' ↦ hqs q' (hmem.1 (List.mem_cons_of_mem q hq'))
    simp only [Query.Answers, Query.Explains, Query.allAnswer_iff, Query.anyExplains_iff, ← hmem]
    simp only [List.forall_mem_cons, List.exists_mem_cons_iff]
    exact (tells_narrow hrest htells hok).congr (fun _ _ _ ↦ Iff.rfl)
      fun _ _ _ hall _ _ ↦ (and_iff_right hall).symm

/-- An alternative tells what any of its operands tells. -/
theorem tells_disj (hqs : ∀ q ∈ qs, s.Tells o c q) (position : Nat) :
    s.Tells o c (.disj position qs) := by
  intro ms hok
  rw [matches?_disj (not_cancelled_of_matches? hok), each_eq_mapM] at hok
  obtain ⟨lists, hlists, rfl⟩ := Passes.map_eq_ok_iff.1 hok
  have hall := (List.forall₂_and_left qs lists).2 ⟨hqs, Passes.mapM_eq_ok_iff.1 hlists⟩
  simp only [Query.Answers, Query.Explains, Query.anyAnswers_iff, Query.anyExplains_iff]
  have htells := Matches.tells_uniteAll (hall.imp fun _ ms h ↦ h.1 ms h.2)
  exact htells.congr (fun _ _ _ ↦ Iff.rfl) fun _ _ _ _ _ _ ↦
    exists_congr fun q ↦ and_congr_right fun _ ↦ and_iff_right_of_imp Query.Explains.answers

/-- **A search tells the truth about every query.** The induction speaks of the query without its
sign, as what a conjunction takes away is what its operands negate. -/
theorem tells (h : s.index.Mirrors s.analyzer c) (q : Query) : s.Tells o c q := by
  suffices hunnegated : s.Tells o c q.unnegated from hunnegated.of_unnegated
  induction q using Query.induct with
  | h t ih =>
    cases t with
    | word position text => exact tells_word h position text
    | wildcard position start => exact tells_wildcard h position start
    | phrase position text words => exact tells_phrase h position text words
    | neg position operand => exact (ih operand (List.mem_singleton_self _)).of_unnegated
    | conj position qs => exact tells_conj ih position
    | disj position qs => exact tells_disj (fun q hq ↦ (ih q hq).of_unnegated) position

end Searcher

end Concordance
