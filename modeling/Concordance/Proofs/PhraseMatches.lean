import Concordance.Proofs.Soundness
import Concordance.Proofs.TermMatches
import Concordance.Search.Phrase

/-!
# The documents of a phrase

The walk over the postings of a phrase finds every document that all of them share
(`commonPostings_eq`): a list that has been moved up to the document of the leading one still has
all that the later leading documents can ask for, and when it is used up there is nothing more to
find. If the postings of a document are those of its texts (`Index.Holds`), the phrase is counted in
it as often as it occurs there (`sum_phraseFields`). What is found are the documents in which it
occurs, unless its occurrences, counted with 32 bits, come round to zero
(`exists_matchPhrase_counts`, `Index.Mirrors.lists_matchPhrase`).
-/

namespace Concordance

/-- The posting of a document. -/
def Postings.of? (ps : Postings) (id : Bytes) : Option Posting :=
  ps.find? (·.doc == id)

/-- The postings of a document in an index are those of its texts. -/
def Index.Holds (ix : Index) (a : Analyzer) (id : Bytes) (fields : Dict Bytes) : Prop :=
  ∀ term p, p ∈ ix.postings term ∧ p.doc = id ↔ Corpus.posting? a term id fields = some p

/-! ### How often a phrase occurs -/

namespace Corpus

variable {a : Analyzer} {o : SearchOptions} {fields : Dict Bytes} {tokens : List Token}

/-- A phrase is counted in a field exactly if its tokens have the positions there. -/
theorem phraseCountIn_pos_iff {first : Token} {others : List Token} :
    0 < phraseCountIn tokens first others ↔ ∃ n ∈ positions first.text tokens, ∀ other ∈ others,
      n + (other.position - first.position) ∈ positions other.text tokens := by
  simp only [phraseCountIn, List.countP_pos_iff, List.all_eq_true, List.contains_iff_mem]

/-- **A phrase occurs at least once exactly if the document has it.** -/
theorem phraseCount_pos_iff : 0 < phraseCount a o fields tokens ↔ HasPhrase a o fields tokens := by
  cases tokens with
  | nil => exact iff_of_false (Nat.lt_irrefl 0) id
  | cons first others =>
    rw [hasPhrase_iff, phraseCount, List.sum_pos_iff_exists_pos_nat]
    simp only [List.mem_map, List.mem_filter]
    constructor
    · rintro ⟨-, ⟨f, ⟨hf, hadmits⟩, rfl⟩, hpos⟩
      obtain ⟨text, htext, htokens⟩ := mem_fieldTokens.1 hf
      exact ⟨f.1, text, htext, hadmits, htokens ▸ phraseCountIn_pos_iff.1 hpos⟩
    · rintro ⟨field, text, htext, hadmits, hoccurs⟩
      exact ⟨_, ⟨(field, a.tokens text field),
        ⟨mem_fieldTokens.2 ⟨text, htext, rfl⟩, hadmits⟩, rfl⟩,
        phraseCountIn_pos_iff.2 hoccurs⟩

/-- A phrase occurs at most as often as there are tokens. -/
theorem phraseCount_le (a : Analyzer) (o : SearchOptions) (fields : Dict Bytes)
    (tokens : List Token) : phraseCount a o fields tokens ≤ size a fields := by
  cases tokens with
  | nil => exact Nat.zero_le _
  | cons first others =>
    have hfield : ∀ tokens : List Token, phraseCountIn tokens first others ≤ tokens.length := by
      intro tokens
      refine List.countP_le_length.trans ?_
      rw [positions, List.length_map]
      exact List.length_filter_le _ _
    calc phraseCount a o fields (first :: others)
        ≤ (((fieldTokens a fields).filter fun f ↦ o.admits f.1).map fun f ↦ f.2.length).sum :=
          List.sum_le_sum fun f _ ↦ hfield f.2
      _ ≤ size a fields :=
          (List.filter_sublist.map fun f : Bytes × List Token ↦ f.2.length).sum_le_sum
            fun _ _ ↦ Nat.zero_le _

theorem CountsPhrase.hasPhrase (h : CountsPhrase a o fields tokens) :
    HasPhrase a o fields tokens :=
  phraseCount_pos_iff.1 (pos_of_not_dvd h)

/-- **In a document that is small enough a phrase that occurs counts.** -/
theorem countsPhrase_iff (hsize : size a fields < 2 ^ 32) :
    CountsPhrase a o fields tokens ↔ HasPhrase a o fields tokens :=
  (not_dvd_iff_pos ((phraseCount_le a o fields tokens).trans_lt hsize)).trans phraseCount_pos_iff

/-- A document with a phrase has each of its terms. -/
theorem mem_terms_of_hasPhrase (hphrase : HasPhrase a o fields tokens)
    {t : Token} (ht : t ∈ tokens) :
    t.text ∈ (terms a fields).toList := by
  cases tokens with
  | nil => exact absurd ht List.not_mem_nil
  | cons first others =>
    obtain ⟨field, text, htext, -, token, htoken, heq, hall⟩ := hphrase
    refine mem_terms_iff_occurs.2 ⟨field, text, htext, ?_⟩
    rcases List.mem_cons.1 ht with rfl | ht
    · exact ⟨token, htoken, heq⟩
    · obtain ⟨token', htoken', heq', -⟩ := hall t ht
      exact ⟨token', htoken', heq'⟩

/-- It has a posting for each of them. -/
theorem exists_posting_of_hasPhrase (hphrase : HasPhrase a o fields tokens) (id : Bytes) {t : Token}
    (ht : t ∈ tokens) : ∃ p, posting? a t.text id fields = some p :=
  ⟨_, posting?_eq_some_iff.2 ⟨rfl, mem_terms_of_hasPhrase hphrase ht⟩⟩

end Corpus

namespace Searcher

/-! ### The walk -/

section Walk

variable {ps : Postings} {d id : Bytes}

theorem of?_cons {p : Posting} :
    Postings.of? (p :: ps) id = if p.doc = id then some p else ps.of? id := by
  rw [Postings.of?, List.find?_cons]
  by_cases h : p.doc = id
  · simp [h]
  · rw [if_neg h, beq_false_of_ne h]
    rfl

/-- A document that no posting is about has none. -/
theorem of?_eq_none (h : ∀ p ∈ ps, p.doc ≠ id) : ps.of? id = none := by
  rw [Postings.of?, List.find?_eq_none]
  exact fun p hp heq ↦ h p hp (beq_iff_eq.1 heq)

theorem of?_eq_some_iff (h : ps.Pairwise fun p q ↦ p.doc < q.doc) {p : Posting} :
    ps.of? id = some p ↔ p ∈ ps ∧ p.doc = id := by
  constructor
  · intro hsome
    exact ⟨List.mem_of_find?_eq_some hsome, by simpa using List.find?_some hsome⟩
  · intro ⟨hmem, hdoc⟩
    have hsome : (ps.of? id).isSome := List.find?_isSome.2 ⟨p, hmem, beq_iff_eq.2 hdoc⟩
    obtain ⟨q, hq⟩ := Option.isSome_iff_exists.1 hsome
    have hqdoc : q.doc = id := by simpa using List.find?_some hq
    rw [hq, eq_of_key_eq h (List.mem_of_find?_eq_some hq) hmem (hqdoc.trans hdoc.symm)]

/-- Moving a list up to a document loses no document from there on. -/
theorem of?_dropWhile (hle : ¬ id < d) :
    Postings.of? (ps.dropWhile (·.doc < d)) id = ps.of? id := by
  induction ps with
  | nil => rfl
  | cons p ps ih =>
    by_cases hlt : p.doc < d
    · have hne : ¬ p.doc = id := fun heq ↦ hle (heq ▸ hlt)
      rw [List.dropWhile_cons_of_pos (by simpa using hlt), ih, of?_cons, if_neg hne]
    · rw [List.dropWhile_cons_of_neg (by simpa using hlt)]

/-- The posting of a document is the one at which a list stands that has been moved up to it. -/
theorem of?_eq_head? (h : ps.Pairwise fun p q ↦ p.doc < q.doc) :
    ps.of? d = (ps.dropWhile (·.doc < d)).head?.filter (·.doc == d) := by
  induction ps with
  | nil => rfl
  | cons p ps ih =>
    obtain ⟨hp, hps⟩ := List.pairwise_cons.1 h
    by_cases hlt : p.doc < d
    · rw [List.dropWhile_cons_of_pos (by simpa using hlt), of?_cons, if_neg (Bytes.ne_of_lt hlt),
        ih hps]
    · rw [List.dropWhile_cons_of_neg (by simpa using hlt), of?_cons, List.head?_cons]
      show _ = if (p.doc == d) = true then some p else none
      by_cases heq : p.doc = d
      · rw [if_pos heq, if_pos (beq_iff_eq.2 heq)]
      · -- the list stands beyond the document
        have hbeyond : ∀ q ∈ ps, q.doc ≠ d := fun q hq hdoc ↦ hlt (hdoc ▸ hp q hq)
        rw [if_neg heq, of?_eq_none hbeyond, if_neg fun h ↦ heq (beq_iff_eq.1 h)]

/-- **The walk finds each document that the leading list shares with all others.** -/
theorem commonPostings_eq {lead : Postings} (hlead : lead.Pairwise fun p q ↦ p.doc < q.doc) :
    ∀ {others : List Postings}, (∀ l ∈ others, l.Pairwise fun p q ↦ p.doc < q.doc) →
      commonPostings lead others =
        lead.filterMap fun p ↦ (others.mapM (Postings.of? · p.doc)).map (p, ·) := by
  induction lead with
  | nil => exact fun _ ↦ rfl
  | cons p rest ih =>
    intro others hothers
    obtain ⟨hp, hrest⟩ := List.pairwise_cons.1 hlead
    have hmoved : ∀ l ∈ others.map (·.dropWhile (·.doc < p.doc)),
        l.Pairwise fun p q ↦ p.doc < q.doc := by
      intro l hl
      obtain ⟨l, hmem, rfl⟩ := List.mem_map.1 hl
      exact (hothers l hmem).sublist (List.dropWhile_sublist _)
    have hlater : commonPostings rest (others.map (·.dropWhile (·.doc < p.doc))) =
        rest.filterMap fun q ↦ (others.mapM (Postings.of? · q.doc)).map (q, ·) := by
      rw [ih hrest hmoved]
      refine List.filterMap_congr fun q hq ↦ ?_
      have hafter : ¬ q.doc < p.doc := fun hlt ↦ Bytes.lt_irrefl _ (Bytes.lt_trans (hp q hq) hlt)
      rw [List.mapM_map]
      simp only [Function.comp_def, of?_dropWhile hafter]
    -- the others have a posting of this document if they all stand at one
    have hheads : others.mapM (Postings.of? · p.doc) =
        ((others.map (·.dropWhile (·.doc < p.doc))).mapM List.head?).filter
          (·.all (·.doc == p.doc)) := by
      rw [← Passes.mapM_filter, List.mapM_map]
      exact Passes.mapM_congr fun l hl ↦ of?_eq_head? (hothers l hl)
    rw [commonPostings, List.filterMap_cons, hlater, hheads]
    cases hmap : (others.map (·.dropWhile (·.doc < p.doc))).mapM List.head? with
    | none =>
      -- a list is used up, so no later document is in it
      obtain ⟨l, hl, hnil⟩ := Passes.mapM_eq_none_iff.1 hmap
      obtain ⟨l, hmem, rfl⟩ := List.mem_map.1 hl
      refine (List.filterMap_eq_nil_iff.2 fun q hq ↦ ?_).symm
      have hafter : ¬ q.doc < p.doc := fun hlt ↦ Bytes.lt_irrefl _ (Bytes.lt_trans (hp q hq) hlt)
      have hnone : Postings.of? l q.doc = none := by
        rw [← of?_dropWhile hafter, List.head?_eq_none_iff.1 hnil]
        rfl
      have hlists : others.mapM (Postings.of? · q.doc) = none :=
        Passes.mapM_eq_none_iff.2 ⟨l, hmem, hnone⟩
      rw [hlists]
      rfl
    | some heads =>
      show (if heads.all (·.doc == p.doc) = true then _ else _) = _
      by_cases hall : heads.all (·.doc == p.doc) = true
      · rw [if_pos hall, Option.filter_some, if_pos hall]
        rfl
      · rw [if_neg hall, Option.filter_some, if_neg hall]
        rfl

/-- The walk stops at postings of the leading list, in their order. -/
theorem commonPostings_sublist (lead : Postings) : ∀ others : List Postings,
    ((commonPostings lead others).map (·.1)).Sublist lead := by
  induction lead with
  | nil => exact fun _ ↦ List.Sublist.slnil
  | cons p rest ih =>
    intro others
    rw [commonPostings]
    split
    · exact List.nil_sublist _
    · split
      · exact (ih _).cons_cons p
      · exact (ih _).cons p

theorem commonPostings_ascending {lead : Postings}
    (h : lead.Pairwise fun p q ↦ p.doc < q.doc) (others : List Postings) :
    (commonPostings lead others).Pairwise fun x y ↦ x.1.doc < y.1.doc := by
  have hwalk := h.sublist (commonPostings_sublist lead others)
  rwa [List.pairwise_map] at hwalk

end Walk

/-! ### One document -/

section Document

variable {a : Analyzer} {o : SearchOptions} {id : Bytes} {fields : Dict Bytes} {first : Token}
  {tokens : List Token} {lead : Posting} {ps : List Posting}

/-- The positions of a term in a field, if it has any there. -/
theorem positionsIn_eq {term field text : Bytes} {p : Posting}
    (hp : Corpus.posting? a term id fields = some p) (htext : fields.find? field = some text)
    {ns : List UInt32} : positionsIn field p = some ns ↔
      ns = Corpus.positions term (a.tokens text field) ∧ ns ≠ [] := by
  have hfields : p.fields = Corpus.hits a term fields := by
    rw [(Corpus.posting?_eq_some_iff.1 hp).1]
  rw [positionsIn, hfields, Option.map_eq_some_iff]
  constructor
  · rintro ⟨h, hh, rfl⟩
    obtain ⟨text', htext', hpositions, hne⟩ := Corpus.mem_hits.1 (List.mem_of_find?_eq_some hh)
    have hfield : h.field = field := by simpa using List.find?_some hh
    rw [hfield] at htext' hpositions
    rw [Option.some.inj (htext.symm.trans htext')]
    exact ⟨hpositions, hne⟩
  · rintro ⟨rfl, hne⟩
    -- some hits in the field are found, and a field has only one
    have hmem : ⟨field, Corpus.positions term (a.tokens text field)⟩ ∈ Corpus.hits a term fields :=
      Corpus.mem_hits.2 ⟨text, htext, rfl, hne⟩
    have hsome : ((Corpus.hits a term fields).find? (·.field == field)).isSome :=
      List.find?_isSome.2 ⟨_, hmem, beq_iff_eq.2 rfl⟩
    obtain ⟨h, hh⟩ := Option.isSome_iff_exists.1 hsome
    have hfield : h.field = field := by simpa using List.find?_some hh
    refine ⟨h, hh, ?_⟩
    rw [eq_of_key_eq (Corpus.hits_ascending a term fields) (List.mem_of_find?_eq_some hh) hmem
      hfield]

/-- The positions of all the other tokens of a phrase in a field, if each has some there. -/
theorem mapM_positionsIn {field text : Bytes}
    (hps : List.Forall₂ (fun t p ↦ Corpus.posting? a t.text id fields = some p) tokens ps)
    (htext : fields.find? field = some text) {lists : List (List UInt32)} :
    ps.mapM (positionsIn field) = some lists ↔
      lists = tokens.map (fun t ↦ Corpus.positions t.text (a.tokens text field)) ∧
        ∀ t ∈ tokens, Corpus.positions t.text (a.tokens text field) ≠ [] := by
  rw [Passes.mapM_eq_some_iff]
  induction hps generalizing lists with
  | nil => simp [List.forall₂_nil_left_iff]
  | @cons t p tokens ps hp _ ih =>
    rw [List.forall₂_cons_left_iff, List.map_cons, List.forall_mem_cons]
    constructor
    · rintro ⟨ns, rest, hns, hrest, rfl⟩
      obtain ⟨rfl, hne⟩ := (positionsIn_eq hp htext).1 hns
      obtain ⟨rfl, hall⟩ := ih.1 hrest
      exact ⟨rfl, hne, hall⟩
    · rintro ⟨rfl, hne, hall⟩
      exact ⟨_, _, (positionsIn_eq hp htext).2 ⟨rfl, hne⟩, ih.2 ⟨rfl, hall⟩, rfl⟩

/-- **A phrase is counted in a field as often as it occurs there.** -/
theorem occurrences_eq {field text : Bytes}
    (hps : List.Forall₂ (fun t p ↦ Corpus.posting? a t.text id fields = some p) tokens ps)
    (htext : fields.find? field = some text) :
    occurrences ⟨field, Corpus.positions first.text (a.tokens text field)⟩ ps
        (tokens.map (·.position - first.position)) =
      Corpus.phraseCountIn (a.tokens text field) first tokens := by
  rw [occurrences, Corpus.phraseCountIn]
  cases hmap : ps.mapM (positionsIn field) with
  | none =>
    -- one of the tokens has no position in the field
    have hlacks : ∃ t ∈ tokens, Corpus.positions t.text (a.tokens text field) = [] := by
      by_contra hall
      have hlists := (mapM_positionsIn hps htext).2 ⟨rfl, fun t ht hnil ↦ hall ⟨t, ht, hnil⟩⟩
      exact absurd (hmap.symm.trans hlists) (Option.some_ne_none _).symm
    obtain ⟨t, ht, hnil⟩ := hlacks
    refine (List.countP_eq_zero.2 fun n _ hall ↦ ?_).symm
    have hmem := List.all_eq_true.1 hall t ht
    rw [hnil] at hmem
    exact absurd hmem Bool.false_ne_true
  | some lists =>
    obtain ⟨rfl, -⟩ := (mapM_positionsIn hps htext).1 hmap
    simp only [List.zip_map', List.all_map, Function.comp_def]

/-- A field without the first token has no occurrence. -/
theorem occurrences_eq_zero {h : FieldHits} (hnil : h.positions = []) (ps : List Posting)
    (offsets : List UInt32) : occurrences h ps offsets = 0 := by
  rw [occurrences, hnil]
  split
  · rfl
  · exact List.countP_nil

/-- Over all fields that count it is counted as often as it occurs in the document. -/
theorem sum_phraseFields (hlead : Corpus.posting? a first.text id fields = some lead)
    (hps : List.Forall₂ (fun t p ↦ Corpus.posting? a t.text id fields = some p) tokens ps) :
    ((phraseFields o lead ps (tokens.map (·.position - first.position))).map (·.2)).sum =
      Corpus.phraseCount a o fields (first :: tokens) := by
  have hfields : lead.fields = Corpus.hits a first.text fields := by
    rw [(Corpus.posting?_eq_some_iff.1 hlead).1]
  -- whether a field is left out where nothing is counted makes no difference to the sum
  have hcounted : ∀ f : Bytes × Nat, ¬ decide (0 < f.2) = true → f.2 = 0 := fun f hf ↦ by
    simpa using hf
  have hhits : ∀ h : FieldHits, ¬ decide (h.positions ≠ []) = true →
      occurrences h ps (tokens.map (·.position - first.position)) = 0 := fun h hh ↦
    occurrences_eq_zero (by simpa using hh) ps _
  rw [phraseFields, hfields, Corpus.hits, Corpus.phraseCount,
    sum_map_filter fun f _ ↦ hcounted f, List.map_map, List.filter_comm]
  show (List.map (fun h ↦ occurrences h ps _) _).sum = _
  rw [sum_map_filter fun h _ ↦ hhits h, List.filter_map, List.map_map]
  refine congrArg List.sum (List.map_congr_left fun f hf ↦ ?_)
  obtain ⟨text, htext, htokens⟩ := Corpus.mem_fieldTokens.1 (List.mem_filter.1 hf).1
  rw [htokens]
  show occurrences ⟨f.1, Corpus.positions first.text f.2⟩ ps _ = _
  rw [htokens]
  exact occurrences_eq hps htext

/-- The number of occurrences is kept as a word. -/
theorem total_phraseFields (hlead : Corpus.posting? a first.text id fields = some lead)
    (hps : List.Forall₂ (fun t p ↦ Corpus.posting? a t.text id fields = some p) tokens ps) :
    total ((phraseFields o lead ps (tokens.map (·.position - first.position))).map
      (·.2.toUInt32)) = (Corpus.phraseCount a o fields (first :: tokens)).toUInt32 := by
  rw [total_map_toUInt32 fun f : Bytes × Nat ↦ f.2, sum_phraseFields hlead hps]

end Document

/-! ### All documents -/

/-- **The postings of a document that is there are a match of that document**, if the phrase is
counted in it. -/
theorem exists_matchPhrasePosting {s : Searcher} {o : SearchOptions} {p : Posting}
    (h : s.index.hasDocument p.doc = true) (terms : ByteSet) (offsets : List UInt32)
    (lists : List Postings) (others : List Posting) :
    ∃ y, s.matchPhrasePosting o terms offsets lists p others = .ok y ∧ (∀ m ∈ y, m.doc = p.doc) ∧
      (y.isSome ↔ total ((phraseFields o p others offsets).map (·.2.toUInt32)) ≠ 0) := by
  rw [matchPhrasePosting]
  rcases Decidable.em (total ((phraseFields o p others offsets).map (·.2.toUInt32)) = 0) with
    hnone | hsome
  · exact ⟨none, if_pos hnone, nofun, ⟨nofun, fun hne ↦ absurd hnone hne⟩⟩
  · obtain ⟨d, hd⟩ := exists_documentStatistics (o := o) h
      (total ((phraseFields o p others offsets).map (·.2.toUInt32)))
    rw [if_neg hsome, hd]
    exact ⟨some _, rfl, fun m hm ↦ Option.some.inj hm ▸ rfl, ⟨fun _ ↦ hsome, fun _ ↦ rfl⟩⟩

section InOrder

variable {s : Searcher} {o : SearchOptions} {first : Token} {tokens : List Token}
  (h : s.index.InOrder)

include h

/-- The walk over the postings of a phrase comes to the documents that have a posting in each
list. -/
theorem mem_commonPostings_iff {p : Posting} {ps : List Posting} :
    (p, ps) ∈ commonPostings (s.index.postings first.text) (tokens.map (s.index.postings ·.text)) ↔
      p ∈ s.index.postings first.text ∧
        List.Forall₂ (fun t q ↦ (s.index.postings t.text).of? p.doc = some q) tokens ps := by
  have hothers : ∀ l ∈ tokens.map (s.index.postings ·.text),
      l.Pairwise fun p q ↦ p.doc < q.doc := by
    intro l hl
    obtain ⟨t, -, rfl⟩ := List.mem_map.1 hl
    exact h.ordered t.text
  rw [commonPostings_eq (h.ordered first.text) hothers, List.mem_filterMap]
  simp only [Option.map_eq_some_iff, Prod.mk.injEq, Passes.mapM_eq_some_iff,
    List.forall₂_map_left_iff]
  constructor
  · rintro ⟨p, hp, ps, hps, rfl, rfl⟩
    exact ⟨hp, hps⟩
  · rintro ⟨hp, hps⟩
    exact ⟨p, hp, ps, hps, rfl, rfl⟩

/-- In a document whose postings are those of its texts it comes to these. -/
theorem mem_commonPostings_holds {id : Bytes} {fields : Dict Bytes}
    (hholds : s.index.Holds s.analyzer id fields) {p : Posting} {ps : List Posting} :
    (p, ps) ∈ commonPostings (s.index.postings first.text)
        (tokens.map (s.index.postings ·.text)) ∧ p.doc = id ↔
      Corpus.posting? s.analyzer first.text id fields = some p ∧
        List.Forall₂ (fun t q ↦ Corpus.posting? s.analyzer t.text id fields = some q)
          tokens ps := by
  have hof : ∀ term q,
      (s.index.postings term).of? id = some q ↔
        Corpus.posting? s.analyzer term id fields = some q :=
    fun term q ↦ (of?_eq_some_iff (h.ordered term)).trans (hholds term q)
  simp only [mem_commonPostings_iff h, ← hholds first.text p, ← hof]
  constructor
  · rintro ⟨⟨hp, hps⟩, rfl⟩
    exact ⟨⟨hp, rfl⟩, hps⟩
  · rintro ⟨⟨hp, rfl⟩, hps⟩
    exact ⟨⟨hp, hps⟩, rfl⟩

/-- The documents of a phrase are those that the walk comes to and in which it is counted. -/
theorem lists_matchPhrase_walk (first : Token) (tokens : List Token) :
    ∃ ms, s.matchPhrase o (first :: tokens) = .ok ms ∧ ms.Lists fun id ↦
      ∃ x ∈ commonPostings (s.index.postings first.text) (tokens.map (s.index.postings ·.text)),
        x.1.doc = id ∧ total ((phraseFields o x.1 x.2
          (tokens.map (·.position - first.position))).map (·.2.toUInt32)) ≠ 0 := by
  have hascending := commonPostings_ascending (h.ordered first.text)
    (tokens.map (s.index.postings ·.text))
  rw [matchPhrase]
  simp only
  split
  · -- a term without postings is in no document
    rename_i hempty
    refine ⟨[], rfl, Matches.lists_nil.congr fun id ↦ iff_of_false False.elim ?_⟩
    rintro ⟨⟨p, ps⟩, hx, -⟩
    obtain ⟨hp, hps⟩ := mem_commonPostings_iff h |>.1 hx
    rw [List.any_cons, Bool.or_eq_true, List.isEmpty_iff] at hempty
    rcases hempty with hnil | hnil
    · exact List.ne_nil_of_mem hp hnil
    · obtain ⟨l, hl, hnil⟩ := List.any_eq_true.1 hnil
      obtain ⟨t, ht, rfl⟩ := List.mem_map.1 hl
      obtain ⟨q, -, hq⟩ := Passes.exists_of_mem_forall₂ hps ht
      rw [List.isEmpty_iff.1 hnil] at hq
      cases hq
  · refine Matches.lists_filterMapM (·.1.doc) hascending (fun x hx ↦ ?_)
      fun id ⟨x, hx, hdoc, _⟩ ↦ ⟨x, hx, hdoc⟩
    have hlead : x.1 ∈ s.index.postings first.text :=
      (commonPostings_sublist _ _).subset (List.mem_map_of_mem hx)
    obtain ⟨y, hy, hdoc, hsome⟩ :=
      exists_matchPhrasePosting (o := o) (h.known _ _ hlead)
        (.ofList ((first :: tokens).map (·.text))) (tokens.map (·.position - first.position))
        (s.index.postings first.text :: tokens.map (s.index.postings ·.text)) x.2
    refine ⟨y, hy, hdoc, hsome.trans ⟨fun hne ↦ ⟨x, hx, rfl, hne⟩, ?_⟩⟩
    rintro ⟨x', hx', hdoc', hne⟩
    rwa [eq_of_key_eq hascending hx' hx hdoc'] at hne

/-- **A phrase is found in documents that are there**, and in one whose postings are those of its
texts exactly if the number of its occurrences is not zero as a word of 32 bits. -/
theorem exists_matchPhrase_counts (tokens : List Token) :
    ∃ ms, s.matchPhrase o tokens = .ok ms ∧ ms.Ordered ∧
      (∀ id ∈ ms.map (·.doc), s.index.hasDocument id = true) ∧
      ∀ id fields, s.index.Holds s.analyzer id fields →
        (id ∈ ms.map (·.doc) ↔ ¬ 2 ^ 32 ∣ Corpus.phraseCount s.analyzer o fields tokens) := by
  cases tokens with
  | nil =>
    refine ⟨[], rfl, .nil, nofun, fun id fields _ ↦ iff_of_false List.not_mem_nil ?_⟩
    exact not_not_intro (Nat.dvd_zero _)
  | cons first tokens =>
    obtain ⟨ms, hok, hlists⟩ := lists_matchPhrase_walk (o := o) h first tokens
    refine ⟨ms, hok, hlists.ordered, fun id hid ↦ ?_, fun id fields hholds ↦ ?_⟩
    · obtain ⟨⟨p, ps⟩, hx, rfl, -⟩ := (hlists.mem_iff id).1 hid
      exact h.known first.text p ((mem_commonPostings_iff h).1 hx).1
    · rw [hlists.mem_iff, ← toUInt32_eq_zero_iff]
      constructor
      · rintro ⟨⟨p, ps⟩, hx, hdoc, hne⟩
        obtain ⟨hp, hps⟩ := (mem_commonPostings_holds h hholds).1 ⟨hx, hdoc⟩
        rwa [total_phraseFields hp hps] at hne
      · intro hne
        have hphrase : Corpus.HasPhrase s.analyzer o fields (first :: tokens) :=
          Corpus.CountsPhrase.hasPhrase (toUInt32_eq_zero_iff.not.1 hne)
        -- a document with the phrase has a posting for each of its terms
        obtain ⟨p, hp⟩ := Corpus.exists_posting_of_hasPhrase hphrase id List.mem_cons_self
        obtain ⟨ps, hps⟩ := Passes.exists_forall₂ fun t ht ↦
          Corpus.exists_posting_of_hasPhrase hphrase id (List.mem_cons_of_mem first ht)
        obtain ⟨hx, hdoc⟩ := (mem_commonPostings_holds h hholds).2 ⟨hp, hps⟩
        exact ⟨(p, ps), hx, hdoc, by rwa [total_phraseFields hp hps]⟩

end InOrder

end Searcher

namespace Index.Mirrors

variable {ix : Index} {a : Analyzer} {c : Corpus}

theorem inOrder (h : ix.Mirrors a c) : ix.InOrder where
  ordered term := by
    rw [h.postings]
    exact Corpus.postings_ascending a c term
  known term p hp := by
    rw [h.postings, Corpus.mem_postings] at hp
    obtain ⟨fields, hfind, -⟩ := hp
    exact (h.documents p.doc).2 ⟨fields, hfind⟩

/-- The postings of each document are those of its texts. -/
theorem holds (h : ix.Mirrors a c) {id : Bytes} {fields : Dict Bytes}
    (hfind : c.find? id = some fields) : ix.Holds a id fields := by
  intro term p
  rw [h.postings, Corpus.mem_postings]
  constructor
  · rintro ⟨⟨fields', hfind', hp⟩, rfl⟩
    rwa [Option.some.inj (hfind.symm.trans hfind')]
  · intro hp
    obtain rfl := Corpus.doc_of_posting? hp
    exact ⟨⟨fields, hfind, hp⟩, rfl⟩

/-- **The documents of a phrase are those in which it counts.** -/
theorem lists_matchPhrase {s : Searcher} (h : s.index.Mirrors s.analyzer c) {o : SearchOptions}
    (tokens : List Token) : ∃ ms, s.matchPhrase o tokens = .ok ms ∧
      Matches.Lists ms (c.Where fun fields ↦ Corpus.CountsPhrase s.analyzer o fields tokens) := by
  obtain ⟨ms, hok, hordered, hknown, hcounts⟩ :=
    Searcher.exists_matchPhrase_counts (o := o) h.inOrder tokens
  refine ⟨ms, hok, hordered, fun id ↦ ⟨fun hid ↦ ?_, fun ⟨fields, hfind, hphrase⟩ ↦ ?_⟩⟩
  · obtain ⟨fields, hfind⟩ := (h.documents id).1 (hknown id hid)
    exact ⟨fields, hfind, (hcounts id fields (h.holds hfind)).1 hid⟩
  · exact (hcounts id fields (h.holds hfind)).2 hphrase

end Index.Mirrors

/-- **The documents of a phrase are those that have it.** -/
theorem Searcher.Serves.lists_matchPhrase {s : Searcher} {c : Corpus} {o : SearchOptions}
    (h : s.Serves o c) (tokens : List Token) : ∃ ms, s.matchPhrase o tokens = .ok ms ∧
      Matches.Lists ms (c.Where fun fields ↦ Corpus.HasPhrase s.analyzer o fields tokens) := by
  obtain ⟨ms, hok, hlists⟩ := h.mirrors.lists_matchPhrase (o := o) tokens
  exact ⟨ms, hok, hlists.congr fun id ↦ exists_congr fun fields ↦ and_congr_right fun hfind ↦
    Corpus.countsPhrase_iff (h.size_lt hfind)⟩

end Concordance
