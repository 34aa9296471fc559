import Concordance.Proofs.Explanations
import Mathlib.Data.Nat.Log

/-!
# The balanced union

A balanced union goes in rounds, each of which halves the number of lists, so it takes as many
rounds as that number can be halved (`iterate_uniteNeighbours`). Uniting the lists one after another
makes another tree over the same lists. Scores are sums, and sums of floating-point numbers depend
on the tree; but the documents and their explanations do not (`IsUnion.explained_eq`): they are
those of all lists together, whatever the tree and whatever the order of the lists
(`uniteAll_eq_sequential`).
-/

namespace Concordance.Matches

variable {a b ms ms' : Matches} {lists lists' : List Matches}

/-! ### Rounds -/

theorem length_uniteNeighbours (lists : List Matches) :
    (uniteNeighbours lists).length = (lists.length + 1) / 2 := by
  fun_induction uniteNeighbours lists with
  | case1 a b rest ih =>
    simp only [List.length_cons, ih]
    omega
  | case2 lists hshort =>
    rcases lists with _ | ⟨a, _ | ⟨b, rest⟩⟩
    · rfl
    · simp
    · exact absurd rfl (hshort a b rest)

/-- **After as many rounds as the number of lists can be halved** their balanced union is left. -/
theorem iterate_uniteNeighbours (lists : List Matches) :
    uniteNeighbours^[Nat.clog 2 lists.length] lists =
      if lists = [] then [] else [uniteAll lists] := by
  fun_induction uniteAll lists with
  | case1 => simp
  | case2 a => simp
  | case3 a b rest ih =>
    have hlength : (uniteNeighbours (a :: b :: rest)).length =
        ((a :: b :: rest).length + 2 - 1) / 2 := length_uniteNeighbours _
    rw [Nat.clog_of_two_le Nat.one_lt_two (by simp), ← hlength, Function.iterate_succ_apply,
      uniteNeighbours, ih, if_neg (List.cons_ne_nil _ _), if_neg (List.cons_ne_nil _ _)]

/-! ### Documents and explanations -/

/-- A match list without its scores. -/
def explained (ms : Matches) : List (Bytes × Explanation) :=
  ms.map fun m ↦ (m.doc, m.explanation)

theorem Ordered.explained (h : ms.Ordered) : ms.explained.Pairwise fun e e' ↦ e.1 < e'.1 :=
  List.pairwise_map.2 h

/-- A list that has the documents of another, with the same fields and the same terms, has its
explanations. -/
theorem mem_explained_of_same (ha : a.Ordered) (hb : b.Ordered)
    (hdocs : ∀ id, id ∈ a.map (·.doc) ↔ id ∈ b.map (·.doc))
    (hfields : ∀ id field, a.Explains id (field ∈ Dict.keys ·) ↔
      b.Explains id (field ∈ Dict.keys ·))
    (hnames : ∀ id field term, a.Names id field term ↔ b.Names id field term)
    {e : Bytes × Explanation} (he : e ∈ a.explained) : e ∈ b.explained := by
  obtain ⟨m, hm, rfl⟩ := List.mem_map.1 he
  obtain ⟨n, hn, hdoc⟩ := List.mem_map.1 ((hdocs m.doc).1 (List.mem_map_of_mem hm))
  refine List.mem_map.2 ⟨n, hn, Prod.ext hdoc (Explanation.ext_names (fun field ↦ ?_)
    fun field term ↦ ?_)⟩
  · rw [← explains_iff_of_mem ha hm (field ∈ Dict.keys ·), hfields, ← hdoc]
    exact (explains_iff_of_mem hb hn (field ∈ Dict.keys ·)).symm
  · rw [← names_iff_of_mem ha hm, hnames, ← hdoc]
    exact (names_iff_of_mem hb hn).symm

/-- **All unions of the same lists agree** in their documents and explanations. -/
theorem IsUnion.explained_eq (h : IsUnion lists ms) (h' : IsUnion lists' ms')
    (hlists : ∀ l ∈ lists, l.Ordered) (hsame : ∀ l, l ∈ lists ↔ l ∈ lists') :
    ms.explained = ms'.explained := by
  have hlists' : ∀ l ∈ lists', l.Ordered := fun l hl ↦ hlists l ((hsame l).2 hl)
  have hdocs := h.lists hlists
  have hdocs' := h'.lists hlists'
  have hdocs_iff : ∀ id, id ∈ ms.map (·.doc) ↔ id ∈ ms'.map (·.doc) := by
    intro id
    rw [hdocs.mem_iff, hdocs'.mem_iff]
    simp only [hsame]
  -- what can be said of a document is what can be said of it in some list
  have hsaid : ∀ said : Explanation → Prop, (∀ x y, said (x.union y) ↔ said x ∨ said y) →
      ∀ id, ms.Explains id said ↔ ms'.Explains id said := by
    intro said hunion id
    rw [h.explains_iff hlists said hunion, h'.explains_iff hlists' said hunion]
    simp only [hsame]
  have hfields := fun id field ↦
    hsaid (field ∈ Dict.keys ·) (fun _ _ ↦ Explanation.mem_keys_union) id
  have hnames := fun id field term ↦
    hsaid (fun x ↦ x.Names field term) (fun _ _ ↦ Explanation.names_union) id
  refine eq_of_ascending hdocs.ordered.explained hdocs'.ordered.explained fun e ↦ ⟨?_, ?_⟩
  · exact mem_explained_of_same hdocs.ordered hdocs'.ordered hdocs_iff hfields hnames
  · exact mem_explained_of_same hdocs'.ordered hdocs.ordered (fun id ↦ (hdocs_iff id).symm)
      (fun id field ↦ (hfields id field).symm) fun id field term ↦ (hnames id field term).symm

/-- Lists united one after another. -/
theorem IsUnion.foldl {as : List Matches} (h : IsUnion as a) (lists : List Matches) :
    IsUnion (as ++ lists) (lists.foldl Matches.unite a) := by
  induction lists generalizing as a with
  | nil => simpa using h
  | cons b lists ih => simpa using ih (h.unite (.single b))

/-- **The balanced union is the sequential one, up to the scores**: after the rounds it is left, its
documents are those of all lists, each with the fields and the terms that it has in any of them, and
neither the tree nor the order of the lists changes that. -/
theorem uniteAll_eq_sequential (h : ∀ l ∈ lists, l.Ordered) :
    uniteNeighbours^[Nat.clog 2 lists.length] lists =
        (if lists = [] then [] else [uniteAll lists]) ∧
      ((uniteAll lists).Lists fun id ↦ ∃ l ∈ lists, id ∈ l.map (·.doc)) ∧
      (∀ id field, (uniteAll lists).Explains id (field ∈ Dict.keys ·) ↔
        ∃ l ∈ lists, l.Explains id (field ∈ Dict.keys ·)) ∧
      (∀ id field term, (uniteAll lists).Names id field term ↔
        ∃ l ∈ lists, l.Names id field term) ∧
      (uniteAll lists).explained = (lists.foldl unite []).explained ∧
      ∀ lists' : List Matches, lists'.Perm lists →
        (uniteAll lists').explained = (uniteAll lists).explained := by
  have hunion := isUnion_uniteAll lists
  refine ⟨iterate_uniteNeighbours lists, hunion.lists h, fun id field ↦ ?_, fun id field term ↦ ?_,
    ?_, fun lists' hperm ↦ ?_⟩
  · exact hunion.explains_iff h (field ∈ Dict.keys ·) (fun _ _ ↦ Explanation.mem_keys_union) id
  · exact hunion.explains_iff h (fun x ↦ x.Names field term) (fun _ _ ↦ Explanation.names_union) id
  · exact hunion.explained_eq (IsUnion.nil.foldl lists) h fun _ ↦ Iff.rfl
  · exact (isUnion_uniteAll lists').explained_eq hunion (fun l hl ↦ h l (hperm.mem_iff.1 hl))
      fun _ ↦ hperm.mem_iff

/-- Three lists, of which the last waits for the second round, and a document that all of them have,
once with a field for which it names no term. -/
theorem uniteAll_eq_sequential_three :
    let said : String → List String → Explanation := fun field terms ↦
      .ofList [(utf8 field, .ofList (terms.map utf8))]
    let a : Matches := [⟨utf8 "1", 1, said "title" ["hat"]⟩]
    let b : Matches := [⟨utf8 "1", 2, said "body" []⟩, ⟨utf8 "2", 3, ∅⟩]
    let c : Matches := [⟨utf8 "0", 5, ∅⟩, ⟨utf8 "1", 4, said "title" ["red"]⟩]
    (∀ l ∈ [a, b, c], l.Ordered) ∧
      uniteNeighbours^[2] [a, b, c] = [uniteAll [a, b, c]] ∧
      utf8 "2" ∈ (uniteAll [a, b, c]).map (·.doc) ∧
      (uniteAll [a, b, c]).Explains (utf8 "1") (utf8 "body" ∈ Dict.keys ·) ∧
      (uniteAll [a, b, c]).Names (utf8 "1") (utf8 "title") (utf8 "hat") ∧
      (uniteAll [a, b, c]).Names (utf8 "1") (utf8 "title") (utf8 "red") ∧
      (uniteAll [a, b, c]).explained = ([a, b, c].foldl unite []).explained ∧
      (uniteAll [b, c, a]).explained = (uniteAll [a, b, c]).explained := by
  intro said a b c
  have hordered : ∀ l ∈ [a, b, c], l.Ordered := by decide
  have hclog : Nat.clog 2 [a, b, c].length = 2 := by decide
  have ha : a ∈ [a, b, c] := List.mem_cons_self
  have hb : b ∈ [a, b, c] := List.mem_cons_of_mem _ List.mem_cons_self
  have hc : c ∈ [a, b, c] := List.mem_cons_of_mem _ (List.mem_cons_of_mem _ List.mem_cons_self)
  obtain ⟨hrounds, hdocs, hfields, hnames, hfold, hperm⟩ := uniteAll_eq_sequential hordered
  refine ⟨hordered, ?_, ?_, ?_, ?_, ?_, hfold, hperm _ (List.perm_append_singleton a [b, c])⟩
  · rwa [hclog] at hrounds
  · exact (hdocs.mem_iff _).2 ⟨b, hb, by decide⟩
  · exact (hfields _ _).2 ⟨b, hb, _, List.mem_cons_self, rfl, by decide⟩
  · exact (hnames _ _ _).2 ⟨a, ha, _, List.mem_cons_self, rfl, .ofList [utf8 "hat"], by decide⟩
  · exact (hnames _ _ _).2
      ⟨c, hc, _, List.mem_cons_of_mem _ List.mem_cons_self, rfl, .ofList [utf8 "red"], by decide⟩

end Concordance.Matches
