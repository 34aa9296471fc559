import Concordance.Proofs.EngineHistory
import Concordance.Proofs.KnownMatches
import Concordance.Proofs.Paging
import Concordance.Proofs.ParserCompleteness
import Concordance.Proofs.PhraseMatches
import Concordance.Text.Table

/-!
# What has been put in is found again

A document that is put in has its postings from its texts, and keeps them whatever is done to other
documents (`Index.isKept_holds`). A text of it that is searched for in quotes is read as a phrase,
and the phrase is analyzed as the text was, so that it occurs where the text stands
(`hasPhrase_text`). The search finds the document unless its occurrences, counted with 32 bits, come
round to zero (`search_quoted_text`).
-/

namespace Concordance

/-! ### Texts in quotes -/

/-- Where no boundary closes a word there are no words. -/
theorem Orthography.wordsFrom_eq_nil {bs : List Boundary} (h : ∀ b ∈ bs, b.closesWord = false)
    (start : Nat) (rest : Bytes) : wordsFrom start rest bs = [] := by
  induction bs generalizing start rest with
  | nil => rfl
  | cons b bs ih =>
    obtain ⟨hb, hbs⟩ := List.forall_mem_cons.1 h
    rw [wordsFrom, ih hbs, hb]
    rfl

/-- A text with words is not white space throughout. -/
theorem Orthography.exists_of_words_ne_nil {o : Orthography} {text : Bytes}
    (h : o.words text ≠ []) :
    ∃ b ∈ text, Bytes.isSpace b = false := by
  by_contra hblank
  have hspace : ∀ b ∈ text, Bytes.isSpace b = true := by simpa using hblank
  exact h (wordsFrom_eq_nil (o.blank text hspace) 0 text)

open Query.Grammar in
/-- **A text in quotes is read as a phrase.** -/
theorem Query.exists_parse_quoted {text : Bytes} (hquote : 34 ∉ text)
    (hfull : ∃ b ∈ text, Bytes.isSpace b = false) :
    ∃ position words, parse (34 :: (text ++ [34])) = .ok (.phrase position text words) := by
  have hprimary : Primary (34 :: (text ++ [34])) (.phrase 0 text (Bytes.words text)) [] :=
    .phrase hquote hfull (runs_iff.2 rfl)
  have hblank : Blank [] := List.forall_mem_nil _
  have htext : Text (34 :: (text ++ [34])) (.phrase 0 text (Bytes.words text)) :=
    ⟨[], _, [], hblank, rfl, .mk (.one (.mk (.one (.positive hprimary)) (.single _))) (.single _),
      hblank⟩
  have hrule : (Query.phrase 0 text (Bytes.words text)).KeepsNegationRule :=
    (checkNegation_false_iff hprimary.filled).1 rfl
  obtain ⟨q, hparse, hunplaced⟩ := exists_parse htext hrule
  cases q with
  | phrase position text' words =>
    rw [unplaced] at hunplaced
    obtain ⟨-, rfl, -⟩ := Query.phrase.inj hunplaced
    exact ⟨position, words, hparse⟩
  | _ => simp [unplaced] at hunplaced

/-! ### A text is a phrase of its own -/

/-- A piece of a query has the tokens of a text, save that they belong to no field. -/
theorem Analyzer.analyze_eq (a : Analyzer) (text field : Bytes) :
    a.analyze true text = (a.tokens text field).map fun t ↦ { t with field := [] } := by
  have key : ∀ (words : List Bytes) (position : UInt32),
      a.tokensFrom true [] position words =
        (a.tokensFrom true field position words).map fun t ↦ { t with field := [] } := by
    intro words
    induction words with
    | nil => exact fun _ ↦ rfl
    | cons word words ih =>
      intro position
      rw [tokensFrom, tokensFrom, ih]
      cases a.term? true word <;> rfl
  exact key (a.orthography.words text) 0

namespace Corpus

variable {a : Analyzer} {o : SearchOptions} {fields : Dict Bytes} {field text : Bytes}

/-- **A document has each of its texts as a phrase**, unless nothing is left of it. -/
theorem hasPhrase_text (hfield : fields.find? field = some text) (hadmits : o.admits field = true)
    (htokens : a.tokens text field ≠ []) : HasPhrase a o fields (a.analyze true text) := by
  rw [a.analyze_eq text field]
  obtain ⟨first, others, heq⟩ := List.exists_cons_of_ne_nil htokens
  rw [heq, List.map_cons]
  refine ⟨field, text, hfield, hadmits, first, heq ▸ List.mem_cons_self, rfl, fun t ht ↦ ?_⟩
  obtain ⟨other, hother, rfl⟩ := List.mem_map.1 ht
  refine ⟨other, heq ▸ List.mem_cons_of_mem first hother, rfl, ?_⟩
  show other.position = first.position + (other.position - first.position)
  rw [UInt32.add_comm, UInt32.sub_add_cancel]

end Corpus

/-! ### The postings of one document -/

namespace Index

variable {ix ix' : Index} {a : Analyzer} {id : Bytes} {fields : Dict Bytes}

/-- **Nothing that is done to other documents changes the postings of a document.** -/
theorem isKept_holds (a : Analyzer) (id : Bytes) (fields : Dict Bytes) :
    IsKept a (·.id ≠ id) (· ≠ id) (Holds · a id fields) where
  publish _ h := h
  retract ix ix' other hother htidy h hok := by
    obtain ⟨ix'', hok', -, hpostings⟩ := htidy.exists_retract other
    obtain rfl := Except.ok.inj (hok'.symm.trans hok)
    intro term p
    rw [← h term p, hpostings, List.mem_filter, decide_eq_true_iff]
    exact ⟨fun ⟨⟨hp, _⟩, hdoc⟩ ↦ ⟨hp, hdoc⟩, fun ⟨hp, hdoc⟩ ↦ ⟨⟨hp, hdoc ▸ hother.symm⟩, hdoc⟩⟩
  record ix d hd htidy h _ := by
    intro term p
    rw [← h term p, htidy.mem_postings_record]
    refine and_congr_left fun hdoc ↦ or_iff_right ?_
    rintro ⟨-, rfl⟩
    exact hd hdoc
  free _ hd := hd

/-- A document that has been recorded has its postings from its texts. -/
theorem IsTidy.exists_replace_holds (h : ix.IsTidy) (a : Analyzer) (d : Document) :
    ∃ ix', ix.replace ⟨d.id, Corpus.fieldTokens a d.fields⟩ = .ok ix' ∧ ix'.IsTidy ∧
      ix'.Holds a d.id d.fields := by
  obtain ⟨ix', hok, htidy, hpostings⟩ := h.exists_replace ⟨d.id, Corpus.fieldTokens a d.fields⟩
  refine ⟨ix', hok, htidy, fun term p ↦ ?_⟩
  rw [hpostings, Corpus.posting_eq, Corpus.terms_eq, Corpus.posting?_eq_some_iff]
  constructor
  · rintro ⟨⟨hterm, rfl⟩ | ⟨-, hne⟩, hdoc⟩
    · exact ⟨rfl, hterm⟩
    · exact absurd hdoc hne
  · rintro ⟨rfl, hterm⟩
    exact ⟨.inl ⟨hterm, rfl⟩, rfl⟩

/-- A document that has a phrase is there. -/
theorem Holds.hasDocument (h : ix.Holds a id fields) (hinOrder : ix.InOrder) {o : SearchOptions}
    {tokens : List Token} (hphrase : Corpus.HasPhrase a o fields tokens) :
    ix.hasDocument id = true := by
  cases tokens with
  | nil => exact hphrase.elim
  | cons first others =>
    obtain ⟨p, hp⟩ := Corpus.exists_posting_of_hasPhrase hphrase id List.mem_cons_self
    obtain ⟨hmem, rfl⟩ := (h first.text p).2 hp
    exact hinOrder.known first.text p hmem

end Index

namespace Engine

variable {e e' : Engine} {d : Document} {o : SearchOptions} {text : Bytes}

/-- A document that has been ingested has its postings from its texts. -/
theorem holds_of_ingest (htidy : e.index.IsTidy) (hingest : e.ingest [d] = .ok e') :
    e'.analyzer = e.analyzer ∧ e'.index.IsTidy ∧ e'.index.Holds e'.analyzer d.id d.fields := by
  obtain ⟨hnil, -⟩ | ⟨-, index, hadd, rfl⟩ := ingest_eq_ok_iff.1 hingest
  · cases hnil
  · obtain ⟨index', hreplace, htidy', hholds⟩ := htidy.exists_replace_holds e.analyzer d
    rw [Index.add_eq (Index.canBeAdded_of_add hadd), List.map_singleton, List.foldlM_cons,
      hreplace] at hadd
    obtain rfl := Except.ok.inj hadd
    exact ⟨rfl, htidy'.publish, hholds⟩

/-! ### Searching for a phrase -/

/-- **All documents of a phrase are on the first page**, if it has room for every document. -/
theorem exists_search_quoted (h : e.index.InOrder) (hquote : 34 ∉ text)
    (htokens : e.analyzer.analyze true text ≠ []) (hnotCancelled : o.cancelled = false)
    (hnonneg : ¬ o.maxDistance < 0) (hoffset : o.offset = 0) (hlimit : o.limit ≠ 0)
    (hroom : e.index.documents.size ≤ o.limit.toNat) :
    ∃ page, e.search o (34 :: (text ++ [34])) = .ok page ∧
      ∀ id fields, e.index.Holds e.analyzer id fields → (id ∈ page.results.map (·.doc) ↔
        ¬ 2 ^ 32 ∣ Corpus.phraseCount e.analyzer o fields (e.analyzer.analyze true text)) := by
  have hwords : e.analyzer.orthography.words text ≠ [] := fun hnil ↦
    htokens (by rw [Analyzer.analyze, hnil]; rfl)
  obtain ⟨position, words, hparse⟩ :=
    Query.exists_parse_quoted hquote (Orthography.exists_of_words_ne_nil hwords)
  obtain ⟨ms, hms, hordered, -, hcounts⟩ :=
    e.searcher.exists_matchPhrase_counts (o := o) h (e.analyzer.analyze true text)
  have hmatches : e.searcher.matches? o (.phrase position text words) = .ok ms := by
    rw [Searcher.matches?_phrase hnotCancelled]
    exact hms
  have hevaluate : e.searcher.evaluate o (.phrase position text words) = .ok ms.ranked :=
    Searcher.evaluate_of_ordered rfl hmatches hordered
  have hlength : ms.ranked.length ≤ e.index.documents.size :=
    Searcher.length_le_of_evaluate hnotCancelled hevaluate
  have hlt := o.limit.toNat_lt
  refine ⟨⟨ms.ranked.length, ms.ranked⟩, ?_, fun id fields hholds ↦ ?_⟩
  · have hfirst : o.offset.toNat = 0 := by rw [hoffset]; rfl
    rw [search_eq hlimit hparse hevaluate, if_neg hnonneg, page_eq (by omega),
      if_neg (by omega), hfirst, List.drop_zero, List.take_of_length_le (by omega)]
  · rw [(ms.ranked_perm.map (·.doc)).mem_iff]
    exact hcounts id fields hholds

/-- **A text that has been ingested is found.** Whatever was done before, as long as every index
that was loaded was in agreement, and whatever is done to other documents after, a search for the
text in quotes succeeds, in fields among which is its own and with room for every document. The
phrase occurs in the document, at most as often as it has tokens, and the document is found unless
the number of its occurrences is zero as a word of 32 bits. -/
theorem search_quoted_text [Orthography] {settings : Settings} {e₀ e₁ : Engine}
    (h : ofSettings settings = .ok e₀) {history later : List Action}
    (hhistory : ∀ action ∈ history, action.LoadsAgreement) {d : Document}
    (hingest : (e₀.afterAll history).ingest [d] = .ok e₁)
    (hlater : ∀ action ∈ later, action.Updates (·.id ≠ d.id) (· ≠ d.id)) {field text : Bytes}
    (hfield : d.fields.find? field = some text) (hquote : 34 ∉ text)
    (htokens : e₀.analyzer.tokens text field ≠ []) {o : SearchOptions}
    (hadmits : o.admits field = true) (hnotCancelled : o.cancelled = false)
    (hnonneg : ¬ o.maxDistance < 0) (hoffset : o.offset = 0)
    (hroom : (e₁.afterAll later).index.documents.size ≤ o.limit.toNat) :
    let n := Corpus.phraseCount e₀.analyzer o d.fields (e₀.analyzer.analyze true text)
    (0 < n ∧ n ≤ Corpus.size e₀.analyzer d.fields) ∧
      ∃ page, (e₁.afterAll later).search o (34 :: (text ++ [34])) = .ok page ∧
        (d.id ∈ page.results.map (·.doc) ↔ ¬ 2 ^ 32 ∣ n) := by
  intro n
  have htidy : (e₀.afterAll history).index.IsTidy :=
    isTidy_afterAll hhistory ((fresh_of_ofSettings h).2 ▸ .empty)
  obtain ⟨hanalyzer, htidy₁, hholds₁⟩ := holds_of_ingest htidy hingest
  rw [analyzer_afterAll] at hanalyzer
  obtain ⟨htidy₂, hholds₂⟩ :=
    isTidy_afterAll_updates (Index.isKept_holds e₁.analyzer d.id d.fields) hlater htidy₁ hholds₁
  rw [hanalyzer] at hholds₂
  have hsame : (e₁.afterAll later).analyzer = e₀.analyzer :=
    (analyzer_afterAll e₁ later).trans hanalyzer
  have hphrase : Corpus.HasPhrase e₀.analyzer o d.fields (e₀.analyzer.analyze true text) :=
    Corpus.hasPhrase_text hfield hadmits htokens
  have hpos : 0 < n := Corpus.phraseCount_pos_iff.2 hphrase
  have hanalyze : e₀.analyzer.analyze true text ≠ [] := by
    rw [e₀.analyzer.analyze_eq text field]
    exact mt List.map_eq_nil_iff.1 htokens
  -- the document itself is there, so the limit is not zero
  have hlimit : o.limit ≠ 0 := by
    have hsize := Dict.size_pos_of_contains (hholds₂.hasDocument htidy₂.toInOrder hphrase)
    rintro hzero
    rw [hzero] at hroom
    exact absurd (Nat.lt_of_lt_of_le hsize hroom) (Nat.lt_irrefl 0)
  refine ⟨⟨hpos, Corpus.phraseCount_le _ _ _ _⟩, ?_⟩
  obtain ⟨page, hsearch, hfound⟩ :=
    exists_search_quoted htidy₂.toInOrder hquote (hsame ▸ hanalyze) hnotCancelled hnonneg hoffset
      hlimit hroom
  rw [hsame] at hfound
  exact ⟨page, hsearch, hfound d.id d.fields hholds₂⟩

/-- A document that replaces another of its name, beside one that is put in later. -/
theorem search_quoted_text_replaced :
    let p : Bytes → Bytes → Document := fun id text ↦ ⟨id, .ofList [(utf8 "title", text)]⟩
    let e₀ : Engine := ⟨{}, {}, .tfidf, ⟨[]⟩, .empty⟩
    let history : List Action := [.ingest [p (utf8 "1") (utf8 "coat")]]
    let d := p (utf8 "1") (utf8 "red hat")
    let later : List Action := [.ingest [p (utf8 "2") (utf8 "hat")], .remove (utf8 "3")]
    let o : SearchOptions := { fields := .ofList [utf8 "title"] }
    ofSettings {} = .ok e₀ ∧ (∀ action ∈ history, action.LoadsAgreement) ∧
      (∀ action ∈ later, action.Updates (·.id ≠ d.id) (· ≠ d.id)) ∧
      ∃ e₁, (e₀.afterAll history).ingest [d] = .ok e₁ ∧
        (e₁.afterAll later).index.documents.size = 2 ∧
        ∃ page, (e₁.afterAll later).search o (utf8 "\"red hat\"") = .ok page ∧
          d.id ∈ page.results.map (·.doc) := by
  intro p e₀ history d later o
  have hsettings : ofSettings {} = .ok e₀ := by rfl
  have hhistory : ∀ action ∈ history, action.LoadsAgreement := List.forall_mem_singleton.2 trivial
  have hlater : ∀ action ∈ later, action.Updates (·.id ≠ d.id) (· ≠ d.id) :=
    List.forall_mem_cons.2 ⟨List.forall_mem_singleton.2 (by decide),
      List.forall_mem_singleton.2 (show utf8 "3" ≠ utf8 "1" by decide)⟩
  obtain ⟨e₁, hingest, hsize⟩ : ∃ e₁, (e₀.afterAll history).ingest [d] = .ok e₁ ∧
      (e₁.afterAll later).index.documents.size = 2 :=
    ⟨_, rfl, by decide⟩
  have hfield : d.fields.find? (utf8 "title") = some (utf8 "red hat") := by decide
  have hadmits : o.admits (utf8 "title") = true := by decide
  obtain ⟨-, page, hsearch, hfound⟩ :=
    search_quoted_text hsettings hhistory hingest hlater hfield (by decide) (by decide) hadmits rfl
      (by decide) rfl (hsize ▸ by decide)
  exact ⟨hsettings, hhistory, hlater, e₁, hingest, hsize, page, hsearch, hfound.2 (by decide)⟩

end Engine

end Concordance
