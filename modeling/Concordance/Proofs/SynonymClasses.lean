import Concordance.Engine.History
import Concordance.Proofs.EngineHistory
import Concordance.Thesaurus

/-!
# Synonyms are a partition

The classes of a table stay apart from each other, whatever calls have been made to define one
(`IsPartition`): the terms of a call are only entered if none of them is in a class already. So a
term is in one class at most, and the table finds it; terms of the same class stand for the same
terms, and that is all that a search asks of the table.

A thesaurus looks terms up in its register, and finds the same (`Thesaurus.Keeps`).
-/

namespace Concordance

variable {a : Analyzer} {term u text : Bytes} {members c d : ByteSet}

/-! ### Classes -/

namespace Synonyms

variable {s s' : Synonyms}

/-- Classes of two terms at least, none of them empty, that have no term in common. -/
structure IsPartition (s : Synonyms) : Prop where
  two : ∀ c ∈ s.classes, 2 ≤ c.size
  named : ∀ c ∈ s.classes, [] ∉ c.toList
  disjoint : s.classes.Pairwise fun c d ↦ ∀ term ∈ c.toList, term ∉ d.toList

theorem IsPartition.empty : Synonyms.empty.IsPartition :=
  ⟨nofun, nofun, .nil⟩

/-- A term is in one class at most. -/
theorem IsPartition.unique (h : s.IsPartition) (hc : c ∈ s.classes) (hd : d ∈ s.classes)
    (htc : term ∈ c.toList) (htd : term ∈ d.toList) : c = d := by
  have hsymm : Std.Symm fun c d : ByteSet ↦ ∀ term ∈ c.toList, term ∉ d.toList :=
    ⟨fun _ _ hcd term hd hc ↦ hcd term hc hd⟩
  by_contra hne
  exact h.disjoint.forall hc hd hne term htc htd

/-- The class of a term is one of the classes, and has the term. -/
theorem classOf_some (h : s.classOf term = some c) : c ∈ s.classes ∧ term ∈ c.toList := by
  have hcontains : c.contains term = true := List.find?_some (p := fun c ↦ Dict.contains c term) h
  exact ⟨List.mem_of_find?_eq_some h, Dict.contains_iff.1 hcontains⟩

/-- A term that is in no class has none. -/
theorem classOf_eq_none_iff : s.classOf term = none ↔ ∀ c ∈ s.classes, term ∉ c.toList := by
  rw [classOf, List.find?_eq_none]
  exact forall₂_congr fun c _ ↦ not_congr Dict.contains_iff

/-- **The class of a term is the class that contains it.** -/
theorem IsPartition.classOf_eq_some_iff (h : s.IsPartition) :
    s.classOf term = some c ↔ c ∈ s.classes ∧ term ∈ c.toList := by
  refine ⟨classOf_some, fun ⟨hc, hterm⟩ ↦ ?_⟩
  rcases hclass : s.classOf term with _ | d
  · exact absurd hterm (classOf_eq_none_iff.1 hclass c hc)
  · obtain ⟨hd, hterm'⟩ := classOf_some hclass
    rw [h.unique hd hc hterm' hterm]

/-- A term stands for itself. -/
theorem mem_expand_self (s : Synonyms) (term : Bytes) : term ∈ (s.expand term).toList := by
  rw [expand]
  rcases hclass : s.classOf term with _ | c
  · exact ByteSet.mem_toList_ofList.2 (List.mem_singleton_self term)
  · exact (classOf_some hclass).2

/-- **Terms that stand for each other stand for the same terms.** -/
theorem IsPartition.expand_eq (h : s.IsPartition) (hu : u ∈ (s.expand term).toList) :
    s.expand u = s.expand term := by
  rw [expand] at hu ⊢
  rw [expand]
  rcases hclass : s.classOf term with _ | c
  · rw [hclass] at hu
    obtain rfl : u = term := List.mem_singleton.1 (ByteSet.mem_toList_ofList.1 hu)
    rw [hclass]
  · rw [hclass] at hu
    rw [h.classOf_eq_some_iff.2 ⟨(classOf_some hclass).1, hu⟩]
    rfl

/-- Terms of the same class stand for the same terms. -/
theorem IsPartition.expand_eq_of_mem (h : s.IsPartition) (hc : c ∈ s.classes)
    (hterm : term ∈ c.toList) (hu : u ∈ c.toList) : s.expand u = s.expand term := by
  have hmem : u ∈ (s.expand term).toList := by
    rw [expand, h.classOf_eq_some_iff.2 ⟨hc, hterm⟩]
    exact hu
  exact h.expand_eq hmem

/-! ### One more class -/

/-- A class can be defined exactly if it has two terms at least, none of which is empty or in a
class. -/
theorem define_eq_ok_iff : s.define members = .ok s' ↔ ([] ∉ members.toList ∧ 2 ≤ members.size ∧
    ∀ term ∈ members.toList, s.classOf term = none) ∧ s' = ⟨s.classes ++ [members]⟩ := by
  rw [define]
  split
  · rename_i hempty
    exact ⟨fun h ↦ (by cases h), fun h ↦ absurd (Dict.contains_iff.1 hempty) h.1.1⟩
  · rename_i hnamed
    split
    · rename_i hsmall
      exact ⟨fun h ↦ (by cases h), fun h ↦ absurd h.1.2.1 (Nat.not_le.2 hsmall)⟩
    · rename_i htwo
      split
      · rename_i term hfind
        have hterm : (s.classOf term).isSome = true :=
          List.find?_some (p := fun t ↦ (s.classOf t).isSome) hfind
        refine ⟨fun h ↦ (by cases h), fun h ↦ ?_⟩
        rw [h.1.2.2 term (List.mem_of_find?_eq_some hfind)] at hterm
        cases hterm
      · rename_i hfree
        rw [List.find?_eq_none] at hfree
        refine ⟨fun h ↦ ⟨⟨fun hmem ↦ hnamed (Dict.contains_iff.2 hmem), Nat.not_lt.1 htwo,
          fun term hterm ↦ by simpa using hfree term hterm⟩, (Except.ok.inj h).symm⟩,
          fun h ↦ h.2 ▸ rfl⟩

/-- **One more class leaves a partition.** -/
theorem IsPartition.define (h : s.IsPartition) (hdefine : s.define members = .ok s') :
    s'.IsPartition := by
  obtain ⟨⟨hnamed, htwo, hfree⟩, rfl⟩ := define_eq_ok_iff.1 hdefine
  refine ⟨?_, ?_, List.pairwise_append.2 ⟨h.disjoint, List.pairwise_singleton _ _, ?_⟩⟩
  · exact List.forall_mem_append.2 ⟨h.two, List.forall_mem_singleton.2 htwo⟩
  · exact List.forall_mem_append.2 ⟨h.named, List.forall_mem_singleton.2 hnamed⟩
  · intro c hc d hd term hterm hmem
    rw [List.mem_singleton.1 hd] at hmem
    exact classOf_eq_none_iff.1 (hfree term hmem) c hc hterm

end Synonyms

/-! ### Words that are defined to be synonyms -/

/-- A text that is one word, with a term. -/
def Analyzer.Means (a : Analyzer) (text term : Bytes) : Prop :=
  (a.analyze true text).map (·.text) = [term]

/-- A term that is meant is not empty. -/
theorem Analyzer.Means.ne_nil (h : a.Means text term) : term ≠ [] := by
  have hmem : term ∈ (a.analyze true text).map (·.text) := h ▸ List.mem_singleton_self term
  obtain ⟨token, htoken, rfl⟩ := List.mem_map.1 hmem
  obtain ⟨word, -, hword⟩ := exists_of_mem_tokensFrom htoken
  exact term?_ne_nil hword

/-- A text is taken for the term that it means. -/
theorem Engine.synonymTerm_eq_ok_iff : synonymTerm a text = .ok term ↔ a.Means text term := by
  rw [synonymTerm, Analyzer.Means]
  rcases a.analyze true text with _ | ⟨token, _ | ⟨token', tokens⟩⟩
  · exact ⟨nofun, nofun⟩
  · simp
  · exact ⟨nofun, by simp⟩

/-- Words that can be one more class: each has one term, there are two of these at least, and none
is in a class. -/
structure Synonyms.Accepts (s : Synonyms) (a : Analyzer) (texts : ByteSet) (terms : List Bytes) :
    Prop where
  means : List.Forall₂ a.Means texts.toList terms
  two : 2 ≤ (ByteSet.ofList terms).size
  free : ∀ term ∈ terms, s.classOf term = none

/-- A class is defined exactly if its texts are accepted, and then it is the last one. -/
theorem Engine.defineClass_eq_ok_iff {s s' : Synonyms} {texts : ByteSet} :
    defineClass a s texts = .ok s' ↔
      ∃ terms, s.Accepts a texts terms ∧ s' = ⟨s.classes ++ [.ofList terms]⟩ := by
  have hpass : ∀ terms, texts.toList.mapM (synonymTerm a) = .ok terms ↔
      List.Forall₂ a.Means texts.toList terms := by
    intro terms
    rw [Passes.mapM_eq_ok_iff]
    simp only [synonymTerm_eq_ok_iff]
  rw [defineClass, Passes.bind_eq_ok_iff]
  refine exists_congr fun terms ↦ ?_
  rw [hpass, Synonyms.define_eq_ok_iff]
  simp only [ByteSet.mem_toList_ofList]
  constructor
  · rintro ⟨hmeans, ⟨-, htwo, hfree⟩, rfl⟩
    exact ⟨⟨hmeans, htwo, hfree⟩, rfl⟩
  · rintro ⟨⟨hmeans, htwo, hfree⟩, rfl⟩
    refine ⟨hmeans, ⟨fun hnil ↦ ?_, htwo, hfree⟩, rfl⟩
    exact Passes.forall_mem_of_forall₂ hmeans (fun _ _ h ↦ h.ne_nil) [] hnil rfl

/-! ### The register -/

namespace Thesaurus

variable {t : Thesaurus} {s : Synonyms} {texts : ByteSet}

/-- A thesaurus that has the classes of a table, and finds for each term the class that the table
finds. -/
structure Keeps (t : Thesaurus) (s : Synonyms) : Prop where
  classes : t.classes = s.classes
  classOf : ∀ term, t.classOf term = s.classOf term

theorem Keeps.empty : Thesaurus.empty.Keeps .empty :=
  ⟨rfl, fun _ ↦ rfl⟩

/-- A table that is kept expands terms alike. -/
theorem Keeps.expand (h : t.Keeps s) (term : Bytes) : t.expand term = s.expand term := by
  rw [Thesaurus.expand, h.classOf, Synonyms.expand]

/-- The register with the terms of a class: it has those that it had, and else those of the
class. -/
theorem find?_foldl_enter (members : ByteSet) (l : List Bytes) (register : Dict ByteSet)
    (term : Bytes) : (l.foldl (enter members) register).find? term =
      (register.find? term).or (if term ∈ l then some members else none) := by
  induction l generalizing register with
  | nil => simp
  | cons term' l ih =>
    rw [List.foldl_cons, ih, enter, Dict.contains]
    rcases hfind : register.find? term' with _ | c
    · rw [if_neg (by simp), Dict.find?_insert]
      by_cases heq : term' = term
      · subst heq
        simp [hfind]
      · simp [heq, Ne.symm heq]
    · rw [if_pos (show (some c).isSome = true from rfl)]
      by_cases heq : term' = term
      · subst heq
        simp [hfind]
      · simp [Ne.symm heq]

/-- **A thesaurus goes on keeping a table** when a class is defined in both, and if the class is
refused, both refuse it. -/
theorem Keeps.define (h : t.Keeps s) (members : ByteSet) :
    (∃ fault, t.define members = .error fault ∧ s.define members = .error fault) ∨
      ∃ t' s', t.define members = .ok t' ∧ s.define members = .ok s' ∧ t'.Keeps s' := by
  have hlookup : t.register.contains = fun term ↦ (s.classOf term).isSome :=
    funext fun term ↦ congrArg Option.isSome (h.classOf term)
  rw [Thesaurus.define, Synonyms.define, hlookup]
  split
  · exact .inl ⟨_, rfl, rfl⟩
  · split
    · exact .inl ⟨_, rfl, rfl⟩
    · rcases members.toList.find? fun term ↦ (s.classOf term).isSome with _ | taken
      · refine .inr ⟨_, _, rfl, rfl, congrArg (· ++ [members]) h.classes, fun term ↦ ?_⟩
        have hold : t.register.find? term = s.classes.find? (·.contains term) := h.classOf term
        rw [Thesaurus.classOf, find?_foldl_enter, Synonyms.classOf, List.find?_append, hold]
        rw [List.find?_singleton]
        exact congrArg _ (if_congr Dict.contains_iff.symm rfl rfl)
      · exact .inl ⟨_, rfl, rfl⟩

/-- The same of a class that is defined by words. -/
theorem Keeps.after (h : t.Keeps s) (a : Analyzer) (texts : ByteSet) :
    (∃ fault, Engine.defineClass a s texts = .error fault ∧ t.after a texts = t) ∨
      ∃ s', Engine.defineClass a s texts = .ok s' ∧ (t.after a texts).Keeps s' := by
  rcases hpass : texts.toList.mapM (Engine.synonymTerm a) with fault | terms
  · have ht : t.defineTexts a texts = .error fault := by rw [defineTexts, hpass]; rfl
    have hs : Engine.defineClass a s texts = .error fault := by rw [Engine.defineClass, hpass]; rfl
    exact .inl ⟨fault, hs, by rw [Thesaurus.after, ht]⟩
  · have htexts : t.defineTexts a texts = t.define (.ofList terms) := by
      rw [defineTexts, hpass]
      rfl
    have hclass : Engine.defineClass a s texts = s.define (.ofList terms) := by
      rw [Engine.defineClass, hpass]
      rfl
    rw [Thesaurus.after, htexts, hclass]
    rcases h.define (.ofList terms) with ⟨fault, ht, hs⟩ | ⟨t', s', ht, hs, hkeeps⟩
    · exact .inl ⟨fault, hs, by rw [ht]⟩
    · exact .inr ⟨s', hs, by rw [ht]; exact hkeeps⟩

end Thesaurus

/-! ### Any calls -/

namespace Engine

variable {e : Engine} {t : Thesaurus}

/-- A thesaurus that keeps the synonyms of an engine, which are a partition. -/
structure HasClasses (e : Engine) (t : Thesaurus) : Prop where
  isPartition : e.synonyms.IsPartition
  keeps : t.Keeps e.synonyms

/-- **A new class leaves the classes apart.** -/
theorem isPartition_defineClass {s s' : Synonyms} {texts : ByteSet} (h : s.IsPartition)
    (hdefine : defineClass a s texts = .ok s') : s'.IsPartition := by
  rw [defineClass] at hdefine
  obtain ⟨terms, -, hdefine⟩ := Passes.bind_eq_ok_iff.1 hdefine
  exact h.define hdefine

/-- **A call keeps the classes**, whether it succeeds or fails. -/
theorem HasClasses.after (h : e.HasClasses t) (texts : ByteSet) :
    (e.after (.define texts)).1.HasClasses (t.after e.analyzer texts) := by
  have hact : e.act (.define texts) =
      (fun synonyms ↦ { e with synonyms }) <$> defineClass e.analyzer e.synonyms texts := by
    rw [map_eq_pure_bind]
    rfl
  rw [Engine.after, hact]
  rcases h.keeps.after e.analyzer texts with ⟨fault, herror, hsame⟩ | ⟨s', hok, hkeeps⟩
  · rw [herror, hsame]
    exact h
  · rw [hok]
    exact ⟨isPartition_defineClass h.isPartition hok, hkeeps⟩

/-- **So do any calls**, one after another. -/
theorem HasClasses.afterAll (h : e.HasClasses t) (calls : List ByteSet) :
    (e.afterAll (calls.map .define)).HasClasses (calls.foldl (Thesaurus.after e.analyzer) t) := by
  induction calls generalizing e t with
  | nil => exact h
  | cons texts calls ih =>
    rw [← analyzer_after e (.define texts)]
    exact ih (analyzer_after e (.define texts) ▸ h.after texts)

/-- Classes that are all accepted. -/
theorem keeps_foldlM {calls : List ByteSet} {s s' : Synonyms} (hs : s.IsPartition)
    (ht : t.Keeps s) (h : calls.foldlM (defineClass a) s = .ok s') :
    s'.IsPartition ∧ (calls.foldl (Thesaurus.after a) t).Keeps s' := by
  induction calls generalizing s t with
  | nil =>
    rw [← Except.ok.inj h]
    exact ⟨hs, ht⟩
  | cons texts calls ih =>
    rw [List.foldlM_cons] at h
    obtain ⟨next, hdefine, hrest⟩ := Passes.bind_eq_ok_iff.1 h
    refine ih (isPartition_defineClass hs hdefine) ?_ hrest
    rcases ht.after a texts with ⟨fault, herror, -⟩ | ⟨s'', hok, hkeeps⟩
    · exact nomatch herror.symm.trans hdefine
    · rw [← Except.ok.inj (hok.symm.trans hdefine)]
      exact hkeeps

/-- **The synonyms in the settings of an engine are a partition.** -/
theorem hasClasses_of_settings [Orthography] {settings : Settings}
    (h : ofSettings settings = .ok e) :
    e.HasClasses (.ofCalls e.analyzer settings.synonyms) := by
  rw [ofSettings] at h
  obtain ⟨stemmer, -, h⟩ := Passes.bind_eq_ok_iff.1 h
  obtain ⟨scorer, -, h⟩ := Passes.bind_eq_ok_iff.1 h
  obtain ⟨synonyms, hclasses, h⟩ := Passes.bind_eq_ok_iff.1 h
  obtain ⟨hpartition, hkeeps⟩ := keeps_foldlM .empty .empty hclasses
  rw [← Except.ok.inj h]
  exact ⟨hpartition, hkeeps⟩

end Engine

end Concordance
