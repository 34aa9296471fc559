import Concordance.Proofs.Matches
import Concordance.Proofs.Passes
import Concordance.Search.Phrase
import Concordance.Search.Term

/-!
# What explanations say

An explanation is a table of sets, but what it says is a relation: which terms it names for which
fields. It says a relation if it names just these pairs and has no field without a term
(`Explanation.Says`); then the relation determines it (`Explanation.Says.unique`). Adding terms and
uniting explanations are disjunctions of relations.

`Matches.Shows` does the same for a match list: its documents are those with a property, and the
explanations of its matches name, document by document, the terms of a relation. What the merges do
to lists that show something is read off their descriptions by `of?`: a document of an intersection
has what both its matches name, and a difference takes the explanation away with the document. A
union of lists, however it was made of them, shows what any of them shows (`IsUnion.shows`).
-/

namespace Concordance

/-! ### One explanation -/

namespace Explanation

/-- The explanation names a term for a field. -/
def Names (x : Explanation) (field term : Bytes) : Prop :=
  ∃ terms, Dict.find? x field = some terms ∧ term ∈ ByteSet.toList terms

/-- The explanation has no field without a term. -/
def IsTight (x : Explanation) : Prop :=
  ∀ field terms, Dict.find? x field = some terms → ∃ term, term ∈ ByteSet.toList terms

/-- The explanation names the terms of a relation and no others, and has no field without a term. -/
structure Says (x : Explanation) (r : Bytes → Bytes → Prop) : Prop where
  names_iff : ∀ field term, x.Names field term ↔ r field term
  tight : x.IsTight

variable {x y : Explanation} {r r' : Bytes → Bytes → Prop}

theorem Says.congr (h : x.Says r) (hr : ∀ field term, r field term ↔ r' field term) : x.Says r' :=
  ⟨fun field term ↦ (h.names_iff field term).trans (hr field term), h.tight⟩

/-- **Explanations with the same fields that name the same terms are equal.** -/
theorem ext_names (hfields : ∀ field, field ∈ Dict.keys x ↔ field ∈ Dict.keys y)
    (hnames : ∀ field term, x.Names field term ↔ y.Names field term) : x = y := by
  refine Dict.ext_find? fun field ↦ ?_
  have hfield := hfields field
  have hterms := hnames field
  simp only [Dict.mem_keys_iff, Names] at hfield hterms
  cases hx : Dict.find? x field <;> cases hy : Dict.find? y field
  all_goals simp only [hx, hy] at hfield hterms
  case none.none => rfl
  case none.some => simp at hfield
  case some.none => simp at hfield
  case some.some => exact congrArg some (ByteSet.ext_toList fun term ↦ by simpa using hterms term)

/-- An explanation is tight if each field that it has names a term. -/
theorem isTight_iff : x.IsTight ↔ ∀ field ∈ Dict.keys x, ∃ term, x.Names field term := by
  constructor
  · intro h field hfield
    obtain ⟨terms, hfind⟩ := Dict.mem_keys_iff.1 hfield
    obtain ⟨term, hterm⟩ := h field terms hfind
    exact ⟨term, terms, hfind, hterm⟩
  · intro h field terms hfind
    obtain ⟨term, terms', hfind', hterm⟩ := h field (Dict.mem_keys_iff.2 ⟨terms, hfind⟩)
    obtain rfl := Option.some.inj (hfind.symm.trans hfind')
    exact ⟨term, hterm⟩

/-- The fields of a tight explanation are those for which it names a term. -/
theorem IsTight.mem_keys_iff (h : x.IsTight) {field : Bytes} :
    field ∈ Dict.keys x ↔ ∃ term, x.Names field term :=
  ⟨isTight_iff.1 h field, fun ⟨_, terms, hfind, _⟩ ↦ Dict.mem_keys_iff.2 ⟨terms, hfind⟩⟩

/-- **What is said determines the explanation.** -/
theorem Says.unique (hx : x.Says r) (hy : y.Says r) : x = y := by
  have hnames : ∀ field term, x.Names field term ↔ y.Names field term := fun field term ↦
    (hx.names_iff field term).trans (hy.names_iff field term).symm
  refine ext_names (fun field ↦ ?_) hnames
  rw [hx.tight.mem_keys_iff, hy.tight.mem_keys_iff]
  exact exists_congr (hnames field)

/-- The terms of a field are those that the relation has for it, if there are any. -/
theorem Says.find?_eq_some_iff (h : x.Says r) {field : Bytes} {terms : ByteSet} :
    Dict.find? x field = some terms ↔
      (∃ term, r field term) ∧ ∀ term, term ∈ terms.toList ↔ r field term := by
  simp only [← h.names_iff, Names]
  constructor
  · intro hfind
    obtain ⟨term, hterm⟩ := h.tight field terms hfind
    exact ⟨⟨term, terms, hfind, hterm⟩, fun term ↦ by simp [hfind]⟩
  · rintro ⟨⟨term, terms', hfind, -⟩, hterms⟩
    rw [hfind]
    exact congrArg some (ByteSet.ext_toList fun term ↦ by simp [hterms, hfind])

/-- An explanation without fields says nothing. -/
theorem says_empty : Says ∅ fun _ _ ↦ False :=
  ⟨fun _ _ ↦ ⟨fun ⟨_, hfind, _⟩ ↦ (nomatch hfind), False.elim⟩, fun _ _ ↦ nofun⟩

theorem mem_getD_find?_iff {field term : Bytes} :
    term ∈ ByteSet.toList ((Dict.find? x field).getD ∅) ↔ x.Names field term := by
  rw [Names]
  cases Dict.find? x field with
  | none => exact ⟨fun h ↦ (List.not_mem_nil h).elim, fun ⟨_, hfind, _⟩ ↦ nomatch hfind⟩
  | some terms => simp

/-- Terms are added to one field. -/
theorem find?_addTerms (x : Explanation) (field field' : Bytes) (terms : ByteSet) :
    Dict.find? (x.addTerms field terms) field' =
      if field = field' then some (((Dict.find? x field).getD ∅).union terms)
      else Dict.find? x field' :=
  Dict.find?_insert _ _ _ _

/-- **Terms added for a field** are named as well. -/
theorem Says.addTerms (h : x.Says r) (field : Bytes) {terms : ByteSet}
    (hterms : ∃ term, term ∈ terms.toList) : (x.addTerms field terms).Says fun field' term ↦
      r field' term ∨ field' = field ∧ term ∈ terms.toList := by
  constructor
  · intro field' term
    rw [Names, find?_addTerms]
    by_cases heq : field = field'
    · subst heq
      simp [mem_getD_find?_iff, h.names_iff]
    · rw [if_neg heq, ← h.names_iff]
      exact (or_iff_left fun hnew ↦ heq hnew.1.symm).symm
  · intro field' terms' hsome
    rw [find?_addTerms] at hsome
    split at hsome
    · obtain ⟨term, hterm⟩ := hterms
      exact ⟨term, Option.some.inj hsome ▸ ByteSet.mem_toList_union.2 (.inr hterm)⟩
    · exact h.tight field' terms' hsome

/-- Terms added for several fields. -/
theorem Says.foldl_addTerms {α : Type} {l : List α} {field : α → Bytes} {terms : α → ByteSet}
    (hl : ∀ e ∈ l, ∃ term, term ∈ (terms e).toList) (h : x.Says r) :
    (l.foldl (fun x e ↦ x.addTerms (field e) (terms e)) x).Says fun field' term ↦
      r field' term ∨ ∃ e ∈ l, field' = field e ∧ term ∈ (terms e).toList := by
  induction l generalizing x r with
  | nil => exact h.congr fun _ _ ↦ by simp
  | cons e l ih =>
    obtain ⟨he, hl⟩ := List.forall_mem_cons.1 hl
    refine (ih hl (h.addTerms (field e) he)).congr fun field' term ↦ ?_
    rw [List.exists_mem_cons_iff, or_assoc]

/-- Terms added for several fields, for each of them once. -/
theorem find?_foldl_addTerms {l : List (Bytes × ByteSet)} (hl : (l.map (·.1)).Nodup)
    (x : Explanation) (field : Bytes) :
    Dict.find? (l.foldl (fun x e ↦ addTerms x e.1 e.2) x) field =
      Option.merge ByteSet.union (Dict.find? x field) (Dict.lookup field l) := by
  induction l generalizing x with
  | nil => simp [Dict.lookup]
  | cons e l ih =>
    obtain ⟨field', terms⟩ := e
    obtain ⟨hfield', hl⟩ := List.nodup_cons.1 hl
    rw [List.foldl_cons, ih hl, find?_addTerms, Dict.lookup]
    split
    · rename_i heq
      subst heq
      -- the field does not come again
      have hnone : Dict.lookup field' l = none := Option.eq_none_iff_forall_ne_some.2
        fun terms' hsome ↦ hfield' (List.mem_map.2 ⟨_, Dict.mem_of_lookup hsome, rfl⟩)
      rw [hnone]
      cases Dict.find? x field' <;> simp
    · rfl

/-- **A union has for each field the terms of both explanations.** -/
theorem find?_union (x y : Explanation) (field : Bytes) :
    Dict.find? (x.union y) field =
      Option.merge ByteSet.union (Dict.find? x field) (Dict.find? y field) :=
  find?_foldl_addTerms (y.keys_ascending.imp Bytes.ne_of_lt) x field

/-- A union has the fields of both explanations. -/
theorem mem_keys_union {field : Bytes} :
    field ∈ Dict.keys (x.union y) ↔ field ∈ Dict.keys x ∨ field ∈ Dict.keys y := by
  simp only [Dict.mem_keys_iff, find?_union]
  cases Dict.find? x field <;> cases Dict.find? y field <;> simp

/-- **A union names what either names.** -/
theorem names_union {field term : Bytes} :
    (x.union y).Names field term ↔ x.Names field term ∨ y.Names field term := by
  simp only [Names, find?_union]
  cases Dict.find? x field <;> cases Dict.find? y field <;> simp

/-- **A union says what both explanations say.** -/
theorem Says.union (hx : x.Says r) (hy : y.Says r') :
    (x.union y).Says fun field term ↦ r field term ∨ r' field term := by
  refine ⟨fun field term ↦ ?_, isTight_iff.2 fun field hfield ↦ ?_⟩
  · rw [names_union, hx.names_iff, hy.names_iff]
  · simp only [names_union, exists_or, ← hx.tight.mem_keys_iff, ← hy.tight.mem_keys_iff]
    exact mem_keys_union.1 hfield

end Explanation

/-! ### Match lists -/

namespace Matches

variable {a b ms : Matches} {m : Match} {p q : Bytes → Prop}
  {r r' : Bytes → Bytes → Bytes → Prop}

/-- The match of a document has an explanation of which something can be said. -/
def Explains (ms : Matches) (id : Bytes) (said : Explanation → Prop) : Prop :=
  ∃ m ∈ ms, m.doc = id ∧ said m.explanation

/-- The match of a document names a term for a field. -/
def Names (ms : Matches) (id field term : Bytes) : Prop :=
  ∃ m ∈ ms, m.doc = id ∧ m.explanation.Names field term

/-- The documents of a list are those with a property, and its explanations name the terms of a
relation. -/
structure Shows (ms : Matches) (p : Bytes → Prop) (r : Bytes → Bytes → Bytes → Prop) : Prop extends
    ms.Lists p where
  names_iff : ∀ id field term, ms.Names id field term ↔ r id field term
  tight : ∀ m ∈ ms, m.explanation.IsTight

theorem Shows.congr {p' : Bytes → Prop} (h : ms.Shows p r) (hp : ∀ id, p id ↔ p' id)
    (hr : ∀ id field term, r id field term ↔ r' id field term) : ms.Shows p' r' :=
  ⟨h.toLists.congr hp, fun id field term ↦ (h.names_iff id field term).trans (hr id field term),
    h.tight⟩

/-- What is named is named for a document of the list. -/
theorem Shows.of_names (h : ms.Shows p r) {id field term : Bytes} (hr : r id field term) :
    p id := by
  obtain ⟨m, hm, rfl, -⟩ := (h.names_iff id field term).2 hr
  exact (h.mem_iff m.doc).1 (List.mem_map_of_mem hm)

/-- In an ordered list a document has one explanation. -/
theorem explains_iff_of_mem (h : ms.Ordered) (hm : m ∈ ms) (said : Explanation → Prop) :
    ms.Explains m.doc said ↔ said m.explanation :=
  ⟨fun ⟨_, hm', hdoc, hsaid⟩ ↦ eq_of_key_eq h hm' hm hdoc ▸ hsaid, fun h ↦ ⟨m, hm, rfl, h⟩⟩

/-- What the match of a document names is what its explanation names. -/
theorem names_iff_of_mem (h : ms.Ordered) (hm : m ∈ ms) {field term : Bytes} :
    ms.Names m.doc field term ↔ m.explanation.Names field term :=
  explains_iff_of_mem h hm fun x ↦ x.Names field term

/-- **Each explanation says the relation at its document.** -/
theorem Shows.says_of_mem (h : ms.Shows p r) (hm : m ∈ ms) : m.explanation.Says (r m.doc) :=
  ⟨fun field term ↦ (names_iff_of_mem h.ordered hm).symm.trans (h.names_iff m.doc field term),
    h.tight m hm⟩

/-- The other way round: from what each explanation says. -/
theorem Lists.shows (h : ms.Lists p) (hsaid : ∀ m ∈ ms, m.explanation.Says (r m.doc)) :
    ms.Shows p fun id field term ↦ p id ∧ r id field term := by
  refine ⟨h, fun id field term ↦ ⟨?_, fun ⟨hid, hr⟩ ↦ ?_⟩, fun m hm ↦ (hsaid m hm).tight⟩
  · rintro ⟨m, hm, rfl, hnames⟩
    have hid := (h.mem_iff m.doc).1 (List.mem_map_of_mem hm)
    exact ⟨hid, ((hsaid m hm).names_iff field term).1 hnames⟩
  · obtain ⟨m, hm, rfl⟩ := List.mem_map.1 ((h.mem_iff id).2 hid)
    exact ⟨m, hm, rfl, ((hsaid m hm).names_iff field term).2 hr⟩

/-- The list without matches shows nothing. -/
theorem shows_nil : Shows [] (fun _ ↦ False) fun _ _ _ ↦ False :=
  ⟨lists_nil, fun _ _ _ ↦ ⟨fun ⟨_, hm, _⟩ ↦ List.not_mem_nil hm, False.elim⟩, nofun⟩

/-! ### Merges -/

/-- **An intersection shows what both lists show of their common documents.** -/
theorem Shows.intersect (ha : a.Shows p r) (hb : b.Shows q r') :
    (intersect a b).Shows (fun id ↦ p id ∧ q id) fun id field term ↦
      (p id ∧ q id) ∧ (r id field term ∨ r' id field term) := by
  have hlists := ha.toLists.intersect hb.toLists
  refine hlists.shows (r := fun id field term ↦ r id field term ∨ r' id field term) fun m hm ↦ ?_
  obtain ⟨m₁, hm₁, m₂, hm₂, hdoc, rfl⟩ := (mem_intersect_iff ha.ordered hb.ordered).1 hm
  have hsaid := hb.says_of_mem hm₂
  rw [← hdoc] at hsaid
  exact (ha.says_of_mem hm₁).union hsaid

/-- **A difference shows of its documents what it did before.** -/
theorem Shows.subtract (ha : a.Shows p r) (hb : b.Lists q) :
    (subtract a b).Shows (fun id ↦ p id ∧ ¬ q id) fun id field term ↦
      r id field term ∧ ¬ q id := by
  have hshows := (ha.toLists.subtract hb).shows fun m hm ↦
    ha.says_of_mem ((subtract_sublist a b).subset hm)
  refine hshows.congr (fun _ ↦ Iff.rfl) fun id field term ↦ ?_
  exact ⟨fun ⟨⟨_, hq⟩, hr⟩ ↦ ⟨hr, hq⟩, fun ⟨hr, hq⟩ ↦ ⟨⟨ha.of_names hr, hq⟩, hr⟩⟩

/-- What can be said of a union of explanations exactly if it can be said of one of them, can be
said of a document in the union of two lists exactly if it can be said in one of them. -/
theorem explains_unite {said : Explanation → Prop}
    (hsaid : ∀ x y : Explanation, said (x.union y) ↔ said x ∨ said y) (ha : a.Ordered)
    (hb : b.Ordered) {id : Bytes} :
    (unite a b).Explains id said ↔ a.Explains id said ∨ b.Explains id said := by
  have hof : ∀ {ms : Matches}, ms.Ordered →
      (ms.Explains id said ↔ ∃ m, ms.of? id = some m ∧ said m.explanation) := by
    intro ms h
    simp only [Explains, of?_eq_some_iff h, and_assoc]
  rw [hof (ha.unite hb), hof ha, hof hb, of?_unite ha hb]
  cases a.of? id <;> cases b.of? id <;> simp [Match.absorb, hsaid]

/-- **So it is in a union of several lists**, however it was made. -/
theorem IsUnion.explains_iff {lists : List Matches} (h : IsUnion lists ms)
    (hlists : ∀ l ∈ lists, l.Ordered) (said : Explanation → Prop)
    (hsaid : ∀ x y : Explanation, said (x.union y) ↔ said x ∨ said y) (id : Bytes) :
    ms.Explains id said ↔ ∃ l ∈ lists, l.Explains id said := by
  induction h with
  | nil => simp [Explains]
  | single a => simp
  | unite hunion hunion' iha ihb =>
    obtain ⟨has, hbs⟩ := List.forall_mem_append.1 hlists
    rw [explains_unite hsaid (hunion.lists has).ordered (hunion'.lists hbs).ordered, iha has,
      ihb hbs]
    simp only [List.mem_append, or_and_right, exists_or]

/-- Lists in order whose explanations are tight. -/
def AreTight (lists : List Matches) : Prop :=
  ∀ ms ∈ lists, ms.Ordered ∧ ∀ m ∈ ms, m.explanation.IsTight

/-- **A union of lists shows what any of them shows.** -/
theorem IsUnion.shows {lists : List Matches} (h : IsUnion lists ms) (htight : AreTight lists) :
    ms.Shows (fun id ↦ ∃ l ∈ lists, id ∈ l.map (·.doc)) fun id field term ↦
      ∃ l ∈ lists, l.Names id field term := by
  have hordered : ∀ l ∈ lists, l.Ordered := fun l hl ↦ (htight l hl).1
  have hlists := h.lists hordered
  have hnames : ∀ id field term, ms.Names id field term ↔ ∃ l ∈ lists, l.Names id field term :=
    fun id field term ↦ h.explains_iff hordered (fun x ↦ x.Names field term)
      (fun _ _ ↦ Explanation.names_union) id
  refine ⟨hlists, hnames, fun m hm ↦ Explanation.isTight_iff.2 fun field hfield ↦ ?_⟩
  -- a list that has the field for the document names a term for it
  obtain ⟨l, hl, n, hn, hdoc, hfield⟩ := (h.explains_iff hordered (field ∈ Dict.keys ·)
    (fun _ _ ↦ Explanation.mem_keys_union) m.doc).1 ⟨m, hm, rfl, hfield⟩
  obtain ⟨term, hterm⟩ := ((htight l hl).2 n hn).mem_keys_iff.1 hfield
  exact ⟨term, (names_iff_of_mem hlists.ordered hm).1 ((hnames ..).2 ⟨l, hl, n, hn, hdoc, hterm⟩)⟩

/-- **A balanced union shows what any of its lists shows.** -/
theorem shows_uniteAll {α : Type} {l : List α} {lists : List Matches} {p : α → Bytes → Prop}
    {r : α → Bytes → Bytes → Bytes → Prop}
    (h : List.Forall₂ (fun x ms ↦ Shows ms (p x) (r x)) l lists) :
    (uniteAll lists).Shows (fun id ↦ ∃ x ∈ l, p x id) fun id field term ↦
      ∃ x ∈ l, r x id field term := by
  have htight : AreTight lists := Passes.forall_mem_of_forall₂ h fun _ _ hx ↦ ⟨hx.ordered, hx.tight⟩
  refine ((isUnion_uniteAll lists).shows htight).congr (fun id ↦ ?_) fun id field term ↦ ?_
  all_goals
    clear htight
    induction h with
    | nil => simp
    | cons hx _ ih => simp only [List.exists_mem_cons_iff, hx.mem_iff, hx.names_iff, ih]

end Matches

/-! ### The matches of postings -/

namespace Searcher

variable {s : Searcher} {o : SearchOptions} {m : Match}

/-- The match of a posting: the weighted score, and the term for each field of the posting that
counts. -/
theorem eq_of_matchPosting {term : Bytes} {weight : Float} {statistics : TermStatistics}
    {p : Posting} (hmatch : s.matchPosting o term weight statistics p = .ok (some m)) :
    (∃ d, s.documentStatistics o p.doc (frequency o p) = .ok d ∧ m.doc = p.doc ∧
      m.score = weight * s.scorer.score statistics d) ∧
    m.explanation.Says fun field u ↦
      o.explain = true ∧ (∃ h ∈ p.fields, h.field = field ∧ o.admits field = true) ∧ u = term := by
  rw [matchPosting] at hmatch
  dsimp only at hmatch
  split at hmatch
  · cases hmatch
  · obtain ⟨d, hd, hmatch⟩ := Passes.bind_eq_ok_iff.1 hmatch
    obtain rfl := Option.some.inj (Except.ok.inj hmatch)
    refine ⟨⟨d, hd, rfl, rfl⟩, ?_⟩
    rcases hexplain : o.explain with _ | _
    · rw [if_neg Bool.false_ne_true]
      exact Explanation.says_empty.congr fun field u ↦ by simp
    · rw [if_pos rfl]
      refine (Explanation.says_empty.foldl_addTerms fun h _ ↦ ⟨term, by simp⟩).congr
        fun field u ↦ ?_
      simp only [List.mem_filter, ByteSet.mem_toList_ofList, List.mem_singleton, false_or, true_and]
      constructor
      · rintro ⟨h, ⟨hh, hadmits⟩, rfl, rfl⟩
        exact ⟨⟨h, hh, rfl, hadmits⟩, rfl⟩
      · rintro ⟨⟨h, hh, rfl, hadmits⟩, rfl⟩
        exact ⟨h, ⟨hh, hadmits⟩, rfl, rfl⟩

/-- The match of postings that share a document: the score over all lists, and the terms of the
phrase for each field that counts and has it. -/
theorem eq_of_matchPhrasePosting {terms : ByteSet} {offsets : List UInt32} {lists : List Postings}
    {lead : Posting} {others : List Posting} (hterms : ∃ term, term ∈ terms.toList)
    (hmatch : s.matchPhrasePosting o terms offsets lists lead others = .ok (some m)) :
    (∃ d, s.documentStatistics o lead.doc
        (total ((phraseFields o lead others offsets).map (·.2.toUInt32))) = .ok d ∧
      m.doc = lead.doc ∧
      m.score = lists.foldl (fun sum l ↦ sum + s.scorer.score (s.termStatistics l) d) 0) ∧
    m.explanation.Says fun field term ↦ o.explain = true ∧
      (∃ h ∈ lead.fields, h.field = field ∧ o.admits field = true ∧
        0 < occurrences h others offsets) ∧ term ∈ terms.toList := by
  rw [matchPhrasePosting] at hmatch
  dsimp only at hmatch
  split at hmatch
  · cases hmatch
  · obtain ⟨d, hd, hmatch⟩ := Passes.bind_eq_ok_iff.1 hmatch
    obtain rfl := Option.some.inj (Except.ok.inj hmatch)
    refine ⟨⟨d, hd, rfl, rfl⟩, ?_⟩
    rcases hexplain : o.explain with _ | _
    · rw [if_neg Bool.false_ne_true]
      exact Explanation.says_empty.congr fun field term ↦ by simp
    · rw [if_pos rfl]
      refine (Explanation.says_empty.foldl_addTerms fun _ _ ↦ hterms).congr fun field term ↦ ?_
      simp only [phraseFields, List.mem_filter, List.mem_map, decide_eq_true_eq, false_or, true_and]
      constructor
      · rintro ⟨_, ⟨⟨h, ⟨hh, hadmits⟩, rfl⟩, hpos⟩, rfl, hterm⟩
        exact ⟨⟨h, hh, rfl, hadmits, hpos⟩, hterm⟩
      · rintro ⟨⟨h, hh, rfl, hadmits, hpos⟩, hterm⟩
        exact ⟨_, ⟨⟨h, ⟨hh, hadmits⟩, rfl⟩, hpos⟩, rfl, hterm⟩

/-- A match of a phrase is made of postings that the walk comes to. -/
theorem exists_of_mem_matchPhrase {first : Token} {others : List Token} {ms : Matches}
    (hok : s.matchPhrase o (first :: others) = .ok ms) (hm : m ∈ ms) :
    ∃ x ∈ commonPostings (s.index.postings first.text) (others.map (s.index.postings ·.text)),
      s.matchPhrasePosting o (.ofList ((first :: others).map (·.text)))
        (others.map (·.position - first.position))
        (s.index.postings first.text :: others.map (s.index.postings ·.text)) x.1 x.2 =
          .ok (some m) := by
  rw [matchPhrase] at hok
  dsimp only at hok
  split at hok
  · rw [← Except.ok.inj hok] at hm
    exact absurd hm List.not_mem_nil
  · exact (Passes.mem_filterMapM_iff hok).1 hm

end Searcher

end Concordance
