import Concordance.Proofs.Explanations

/-!
# The merges as set operations

On match lists in order the three merges are set operations (`merges_of_ordered`): their documents
are the common ones, those of either side, and those of the first side alone. A match of a document
that only one side has is left as it is. Of a document that both have there are two matches, and
what they make together is said without the way in which it is computed (`Match.IsSum`): their
scores are added, and for each field the terms of both are there. No two matches fit that
description, since an explanation is known by its fields and by what it names.
-/

namespace Concordance

/-- What two matches of one document make together: the sum of their scores, the fields of both,
and for each field the terms of both. -/
structure Match.IsSum (x y m : Match) : Prop where
  doc_left : x.doc = m.doc
  doc_right : y.doc = m.doc
  score : m.score = x.score + y.score
  fields : ∀ field, field ∈ Dict.keys m.explanation ↔
    field ∈ Dict.keys x.explanation ∨ field ∈ Dict.keys y.explanation
  names : ∀ field term, m.explanation.Names field term ↔
    x.explanation.Names field term ∨ y.explanation.Names field term

/-- **Two matches of one document make just one together.** -/
theorem Match.isSum_iff {x y m : Match} : x.IsSum y m ↔ x.doc = y.doc ∧ m = x.absorb y := by
  constructor
  · intro h
    have hexplanation : m.explanation = x.explanation.union y.explanation :=
      Explanation.ext_names (fun field ↦ (h.fields field).trans Explanation.mem_keys_union.symm)
        fun field term ↦ (h.names field term).trans Explanation.names_union.symm
    refine ⟨h.doc_left.trans h.doc_right.symm, ?_⟩
    rw [absorb, h.doc_left, ← h.score, ← hexplanation]
  · rintro ⟨hdoc, rfl⟩
    exact ⟨rfl, hdoc.symm, rfl, fun _ ↦ Explanation.mem_keys_union, fun _ _ ↦
      Explanation.names_union⟩

namespace Matches

variable {a b : Matches}

/-- **The merges of lists in order are set operations**: they are in order, they have the documents
that both lists, either list and only the first list have, and their matches are those of the
lists, with the two matches of a common document made into one. -/
theorem merges_of_ordered (ha : a.Ordered) (hb : b.Ordered) :
    ((intersect a b).Lists fun id ↦ id ∈ a.map (·.doc) ∧ id ∈ b.map (·.doc)) ∧
      ((unite a b).Lists fun id ↦ id ∈ a.map (·.doc) ∨ id ∈ b.map (·.doc)) ∧
      ((subtract a b).Lists fun id ↦ id ∈ a.map (·.doc) ∧ id ∉ b.map (·.doc)) ∧
      (∀ m, m ∈ intersect a b ↔ ∃ x ∈ a, ∃ y ∈ b, x.IsSum y m) ∧
      (∀ m, m ∈ unite a b ↔ m ∈ a ∧ m.doc ∉ b.map (·.doc) ∨ m ∈ b ∧ m.doc ∉ a.map (·.doc) ∨
        ∃ x ∈ a, ∃ y ∈ b, x.IsSum y m) ∧
      ∀ m, m ∈ subtract a b ↔ m ∈ a ∧ m.doc ∉ b.map (·.doc) := by
  have hlists : a.Lists (· ∈ a.map (·.doc)) := ⟨ha, fun _ ↦ Iff.rfl⟩
  have hlists' : b.Lists (· ∈ b.map (·.doc)) := ⟨hb, fun _ ↦ Iff.rfl⟩
  refine ⟨hlists.intersect hlists', hlists.unite hlists', hlists.subtract hlists', fun m ↦ ?_,
    fun m ↦ ?_, fun m ↦ mem_subtract_iff ha hb⟩
  · simp only [Match.isSum_iff]
    exact mem_intersect_iff ha hb
  · simp only [Match.isSum_iff]
    exact mem_unite_iff ha hb

/-- Two lists with one common document, which has another term of one field on each side. -/
theorem merges_of_ordered_common :
    let title : List String → Explanation := fun terms ↦
      .ofList [(utf8 "title", .ofList (terms.map utf8))]
    let a : Matches := [⟨utf8 "1", 0.5, title ["hat"]⟩, ⟨utf8 "2", 1, title ["hat"]⟩]
    let b : Matches := [⟨utf8 "2", 2, title ["red"]⟩, ⟨utf8 "3", 4, ∅⟩]
    a.Ordered ∧ b.Ordered ∧ (unite a b).Ordered ∧
      ⟨utf8 "1", 0.5, title ["hat"]⟩ ∈ unite a b ∧
      ⟨utf8 "2", 1 + 2, title ["hat", "red"]⟩ ∈ intersect a b ∧
      utf8 "2" ∉ (subtract a b).map (·.doc) := by
  intro title a b
  have ha : a.Ordered := by decide
  have hb : b.Ordered := by decide
  obtain ⟨-, hunite, hsubtract, hcommon, heither, -⟩ := merges_of_ordered ha hb
  have htitle : (title ["hat"]).union (title ["red"]) = title ["hat", "red"] := by decide
  refine ⟨ha, hb, hunite.ordered, ?_, ?_, ?_⟩
  · exact (heither _).2 (.inl ⟨List.mem_cons_self, by decide⟩)
  · refine (hcommon _).2 ⟨_, List.mem_cons_of_mem _ List.mem_cons_self, _, List.mem_cons_self, ?_⟩
    exact Match.isSum_iff.2 ⟨rfl, by rw [Match.absorb, htitle]⟩
  · rw [hsubtract.mem_iff]
    decide

end Matches

end Concordance
