import Concordance.Proofs.Alike
import Concordance.Proofs.SynonymClasses
import Concordance.Text.Table

/-!
# Synonyms are interchangeable

Terms of one class stand for the same terms, so a word can be replaced by another of the same class
wherever it stands in a query (`Query.Exchange`). The search cannot tell the two queries apart: not
by the documents, nor by their scores, explanations or order, nor by an error. This takes nothing
from the index; it is a congruence, carried from the word up to the whole tree.

The classes themselves are a partition after any calls, and this is all that the exchange rests on
(`Engine.synonyms_interchangeable`).
-/

namespace Concordance

/-! ### Replacing a word -/

namespace Query

/-- A query, and the same with one of its words replaced by another of the same class. -/
inductive Exchange (a : Analyzer) (s : Synonyms) : Query → Query → Prop
  | word {position : Nat} {text text' term term' : Bytes} {c : ByteSet} (hterm : a.Means text term)
      (hterm' : a.Means text' term') (hc : c ∈ s.classes) (hmem : term ∈ c.toList)
      (hmem' : term' ∈ c.toList) : Exchange a s (.word position text) (.word position text')
  | neg (position : Nat) {q q' : Query} (h : Exchange a s q q') :
      Exchange a s (.neg position q) (.neg position q')
  | conj (position : Nat) (before after : List Query) {q q' : Query} (h : Exchange a s q q') :
      Exchange a s (.conj position (before ++ q :: after)) (.conj position (before ++ q' :: after))
  | disj (position : Nat) (before after : List Query) {q q' : Query} (h : Exchange a s q q') :
      Exchange a s (.disj position (before ++ q :: after)) (.disj position (before ++ q' :: after))

variable {a : Analyzer} {s : Synonyms} {q q' : Query}

theorem Exchange.sign (h : Exchange a s q q') : q'.isNegation = q.isNegation := by
  cases h <;> rfl

theorem checkNegations_congr {qs qs' : List Query}
    (h : List.Forall₂
      (fun q q' : Query ↦ ∀ inside, q'.checkNegation inside = q.checkNegation inside)
      qs qs') (inside : Bool) : checkNegations inside qs' = checkNegations inside qs := by
  induction h with
  | nil => rfl
  | cons hq _ ih => rw [checkNegations, checkNegations, hq, ih]

/-- The negation rule does not look at words. -/
theorem Exchange.checkNegation (h : Exchange a s q q') :
    ∀ inside, q'.checkNegation inside = q.checkNegation inside := by
  induction h with
  | word => exact fun _ ↦ rfl
  | neg position _ ih =>
    intro inside
    rw [Query.checkNegation, Query.checkNegation, ih]
  | conj position before after h ih =>
    intro inside
    rw [Query.checkNegation, Query.checkNegation,
      checkNegations_congr (Passes.forall₂_replace (fun _ _ ↦ rfl) before after ih)]
    simp only [List.all_append, List.all_cons, h.sign]
  | disj position before after _ ih =>
    intro inside
    rw [Query.checkNegation, Query.checkNegation,
      checkNegations_congr (Passes.forall₂_replace (fun _ _ ↦ rfl) before after ih)]

end Query

/-! ### What a search makes of it -/

namespace Searcher

variable {s : Searcher} {o : SearchOptions} {q q' : Query}

/-- A word that has one term is searched for by what the term stands for. -/
theorem matchWord_of_means {text term : Bytes} (h : s.analyzer.Means text term) :
    s.matchWord o text = s.matchExpansion o term := by
  obtain ⟨token, htokens, rfl⟩ := List.map_eq_singleton_iff.1 h
  rw [matchWord, htokens]

/-- Terms that stand for the same terms have the same matches, near ones included. -/
theorem matchExpansion_congr {term term' : Bytes}
    (h : s.synonyms.expand term' = s.synonyms.expand term) :
    s.matchExpansion o term' = s.matchExpansion o term := by
  rw [matchExpansion, matchExpansion, expansion, expansion, h]

/-- **A search cannot tell a word from another of the same class**, wherever it stands. -/
theorem alike_of_exchange (hpartition : s.synonyms.IsPartition)
    (h : Query.Exchange s.analyzer s.synonyms q q') : s.Alike o o q q' := by
  induction h with
  | word hterm hterm' hc hmem hmem' =>
    refine .of_whole rfl rfl ?_
    rw [matches?, matches?, matchWord_of_means hterm, matchWord_of_means hterm',
      matchExpansion_congr (hpartition.expand_eq_of_mem hc hmem hmem')]
  | neg position _ ih => exact ih.neg rfl position
  | conj position before after _ ih =>
    exact .conj rfl position (Passes.forall₂_replace .refl before after ih)
  | disj position before after _ ih =>
    exact .disj rfl position (Passes.forall₂_replace .refl before after ih)

end Searcher

/-! ### Any calls -/

namespace Engine

/-- What a call does that defines a class of synonyms: it succeeds exactly if the words can be one
more class, and then they are the last one. Else nothing is changed. -/
structure DefinesAsWhole (e : Engine) (texts : ByteSet) : Prop where
  succeeds : (e.after (.define texts)).2 = none ↔
    ∃ terms, e.synonyms.Accepts e.analyzer texts terms
  defined : ∀ terms, e.synonyms.Accepts e.analyzer texts terms →
    (e.after (.define texts)).1 =
      { e with synonyms := ⟨e.synonyms.classes ++ [.ofList terms]⟩ }
  unchanged : ∀ fault, (e.after (.define texts)).2 = some fault → (e.after (.define texts)).1 = e

theorem definesAsWhole (e : Engine) (texts : ByteSet) : e.DefinesAsWhole texts := by
  have hok : ∀ e', e.define texts = .ok e' ↔ ∃ terms, e.synonyms.Accepts e.analyzer texts terms ∧
      e' = { e with synonyms := ⟨e.synonyms.classes ++ [.ofList terms]⟩ } := by
    intro e'
    rw [define_eq_ok_iff]
    simp only [defineClass_eq_ok_iff]
    constructor
    · rintro ⟨_, ⟨terms, haccepts, rfl⟩, rfl⟩
      exact ⟨terms, haccepts, rfl⟩
    · rintro ⟨terms, haccepts, rfl⟩
      exact ⟨_, ⟨terms, haccepts, rfl⟩, rfl⟩
  have hact : e.act (.define texts) = e.define texts := rfl
  refine ⟨?_, fun terms haccepts ↦ ?_, fun fault hfault ↦ ?_⟩
  · rw [Engine.after, hact]
    rcases hdefine : e.define texts with fault | e'
    · constructor
      · intro hnone
        cases hnone
      · rintro ⟨terms, haccepts⟩
        rw [(hok _).2 ⟨terms, haccepts, rfl⟩] at hdefine
        cases hdefine
    · obtain ⟨terms, haccepts, -⟩ := (hok e').1 hdefine
      exact ⟨fun _ ↦ ⟨terms, haccepts⟩, fun _ ↦ rfl⟩
  · rw [Engine.after, hact, (hok _).2 ⟨terms, haccepts, rfl⟩]
  · revert hfault
    rw [Engine.after, hact]
    rcases e.define texts with fault' | e'
    · exact fun _ ↦ rfl
    · intro hnone
      cases hnone

/-- **Synonyms are a partition, and interchangeable.** After any calls that define a class, of which
some may have failed, the classes are apart from each other, and a thesaurus in which the same calls
have been made finds the class of a term if it has one. What a term stands for contains it and is
the same for all terms that it contains. A call succeeds or fails as a whole, and exactly if its
words can be one more class. And if a word of a query is replaced by another of the same class, the
result of the query is the same, for any index and options. -/
theorem synonyms_interchangeable [Orthography] {settings : Settings} {e₀ : Engine}
    (h : ofSettings settings = .ok e₀) (calls : List ByteSet) :
    let e := e₀.afterAll (calls.map .define)
    let t := Thesaurus.ofCalls e₀.analyzer (settings.synonyms ++ calls)
    e.synonyms.IsPartition ∧ t.Keeps e.synonyms ∧
      (∀ term c, t.classOf term = some c ↔ c ∈ t.classes ∧ term ∈ c.toList) ∧
      (∀ term, term ∈ (t.expand term).toList ∧
        ∀ u ∈ (t.expand term).toList, t.expand u = t.expand term) ∧
      (∀ texts, e.DefinesAsWhole texts) ∧
      ∀ index o q q', Query.Exchange e.analyzer e.synonyms q q' →
        { e with index }.searcher.evaluate o q' = { e with index }.searcher.evaluate o q := by
  intro e t
  obtain ⟨hpartition, hkeeps⟩ : e.HasClasses t := by
    have hclasses := (hasClasses_of_settings h).afterAll calls
    rwa [Thesaurus.ofCalls, ← List.foldl_append] at hclasses
  refine ⟨hpartition, hkeeps, fun term c ↦ ?_, fun term ↦ ⟨?_, fun u hu ↦ ?_⟩,
    definesAsWhole e, fun index o q q' hexchange ↦ ?_⟩
  · rw [hkeeps.classOf, hkeeps.classes]
    exact hpartition.classOf_eq_some_iff
  · rw [hkeeps.expand]
    exact e.synonyms.mem_expand_self term
  · rw [hkeeps.expand] at hu
    rw [hkeeps.expand, hkeeps.expand]
    exact hpartition.expand_eq hu
  · exact (Searcher.alike_of_exchange (s := { e with index }.searcher)
      hpartition hexchange).evaluate
      (hexchange.checkNegation false)

/-- The first call is refused, because one of its words is in a class already. -/
theorem synonyms_interchangeable_refused :
    let set : List String → ByteSet := fun l ↦ .ofList (l.map utf8)
    let settings : Settings := { synonyms := [set ["auto", "car"]] }
    let e₀ : Engine := ⟨settings, {}, .tfidf, ⟨[set ["auto", "car"]]⟩, .empty⟩
    let calls : List ByteSet := [set ["CAR", "van"], set ["Bus", "bus", "tram"]]
    let e := e₀.afterAll (calls.map .define)
    let t := Thesaurus.ofCalls {} (settings.synonyms ++ calls)
    let q : Bytes → Query := fun text ↦ .conj 0 [.word 0 (utf8 "red"), .neg 4 (.word 5 text)]
    ofSettings settings = .ok e₀ ∧ t.classes = [set ["auto", "car"], set ["bus", "tram"]] ∧
      t.classOf (utf8 "van") = none ∧ t.expand (utf8 "tram") = t.expand (utf8 "bus") ∧
      ∀ index o, { e with index }.searcher.evaluate o (q (utf8 "TRAM")) =
        { e with index }.searcher.evaluate o (q (utf8 "bus")) := by
  have hclasses : (Thesaurus.ofCalls {} ([.ofList [utf8 "auto", utf8 "car"]] ++
      [.ofList [utf8 "CAR", utf8 "van"], .ofList [utf8 "Bus", utf8 "bus", utf8 "tram"]])).classes =
        [.ofList [utf8 "auto", utf8 "car"], .ofList [utf8 "bus", utf8 "tram"]] := by
    decide +kernel
  intro set settings e₀ calls e t q
  have hsettings : ofSettings settings = .ok e₀ := by rfl
  obtain ⟨-, hkeeps, hclassOf, hexpand, -, hexchange⟩ := synonyms_interchangeable hsettings calls
  have hanalyzer : e.analyzer = {} := analyzer_afterAll e₀ _
  have hbus : set ["bus", "tram"] ∈ t.classes :=
    hclasses ▸ List.mem_cons_of_mem _ (List.mem_singleton_self _)
  have hclass : t.classOf (utf8 "bus") = some (set ["bus", "tram"]) :=
    (hclassOf (utf8 "bus") _).2 ⟨hbus, by decide⟩
  refine ⟨hsettings, hclasses, ?_, ?_, fun index o ↦ ?_⟩
  · refine Option.eq_none_iff_forall_ne_some.2 fun c hc ↦ ?_
    obtain ⟨hmem, hvan⟩ := (hclassOf (utf8 "van") c).1 hc
    have hall : ∀ c ∈ [set ["auto", "car"], set ["bus", "tram"]], utf8 "van" ∉ c.toList := by decide
    exact hall c (hclasses ▸ hmem) hvan
  · refine (hexpand (utf8 "bus")).2 (utf8 "tram") ?_
    rw [Thesaurus.expand, hclass]
    decide
  · have hmeans : Analyzer.Means {} (utf8 "bus") (utf8 "bus") := by rfl
    have hmeans' : Analyzer.Means {} (utf8 "TRAM") (utf8 "tram") := by rfl
    have hmem : set ["bus", "tram"] ∈ e.synonyms.classes := by
      rw [← hkeeps.classes]
      exact hbus
    have hword : Query.Exchange e.analyzer e.synonyms (.word 5 (utf8 "bus"))
        (.word 5 (utf8 "TRAM")) := by
      rw [hanalyzer]
      exact .word hmeans hmeans' hmem (by decide) (by decide)
    exact hexchange index o _ _ (.conj 0 [.word 0 (utf8 "red")] [] (.neg 4 hword))

end Engine

end Concordance
