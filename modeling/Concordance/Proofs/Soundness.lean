import Concordance.Index.Soundness
import Concordance.Proofs.Dict
import Concordance.Proofs.Passes

/-!
# What the check of an index looks for

The check of an index goes through lists and remembers the element before; what it makes sure of is
that the lists are in order throughout, because the orders are transitive. `Index.IsSound` says it
without a pass: an index passes the check exactly if it is sound (`check_eq_ok_iff`).
-/

namespace Concordance

/-- A posting that an index may have: of a document that is there, with fields in order, each with
ascending positions, and with a frequency that counts them. -/
structure Posting.IsSound (ix : Index) (p : Posting) : Prop where
  known : ix.hasDocument p.doc = true
  nonempty : p.fields ≠ []
  ordered : p.fields.Pairwise fun h h' ↦ h.field < h'.field
  positions : ∀ h ∈ p.fields, h.positions ≠ [] ∧ h.positions.Pairwise (· < ·)
  frequency : hitCount p.fields = p.frequency

/-- An index whose terms have sound postings in the order of documents, and whose documents list
terms that are there. -/
structure Index.IsSound (ix : Index) : Prop where
  nonempty : ∀ e ∈ ix.terms.entries, e.2 ≠ []
  ordered : ∀ e ∈ ix.terms.entries, e.2.Pairwise fun p q ↦ p.doc < q.doc
  postings : ∀ e ∈ ix.terms.entries, ∀ p ∈ e.2, p.IsSound ix
  listed : ∀ e ∈ ix.documents.entries, ∀ term ∈ e.2.terms, ix.hasTerm term = true

/-- An index whose postings are in the order of documents, of documents that are there. -/
structure Index.InOrder (ix : Index) : Prop where
  ordered : ∀ term, (ix.postings term).Pairwise fun p q ↦ p.doc < q.doc
  known : ∀ term, ∀ p ∈ ix.postings term, ix.hasDocument p.doc = true

/-- Neighbours in order are a list in order. -/
theorem neighbours_iff {α : Type} {r : α → α → Bool}
    (htrans : ∀ a b c, r a b = true → r b c = true → r a c = true) {l : List α} :
    neighbours r l = true ↔ l.Pairwise fun a b ↦ r a b = true := by
  induction l with
  | nil => simp [neighbours]
  | cons a l ih =>
    cases l with
    | nil => simp [neighbours]
    | cons b l => rw [neighbours, Bool.and_eq_true, ih, pairwise_cons_cons_iff htrans]

theorem neighbours_lt_iff {ns : List UInt32} :
    neighbours (fun a b ↦ a < b) ns = true ↔ ns.Pairwise (· < ·) := by
  have htrans : ∀ a b c : UInt32, decide (a < b) = true → decide (b < c) = true →
      decide (a < c) = true := by
    intro a b c hab hbc
    exact decide_eq_true (UInt32.lt_trans (of_decide_eq_true hab) (of_decide_eq_true hbc))
  rw [neighbours_iff htrans]
  simp only [decide_eq_true_eq]

namespace Index

variable {ix : Index} {term id : Bytes}

/-- What is remembered goes before a list in order. -/
theorem pairwise_toList_append {previous : Option Bytes} {s : Bytes} {l : List Bytes} :
    (previous.toList ++ s :: l).Pairwise (· < ·) ↔
      (previous.any fun p ↦ ¬ p < s) = false ∧ (s :: l).Pairwise (· < ·) := by
  cases previous with
  | none => simp
  | some p =>
    rw [Option.toList_some, List.singleton_append,
      pairwise_cons_cons_iff (r := (· < ·)) fun _ _ _ ↦ Bytes.lt_trans]
    simp

/-- **The check of fields.** They are in order, also after the field before. -/
theorem checkFields_eq_ok_iff {fields : List FieldHits} : ∀ {previous : Option Bytes},
    checkFields term id previous fields = .ok () ↔
      (previous.toList ++ fields.map (·.field)).Pairwise (· < ·) ∧
        ∀ h ∈ fields, h.positions ≠ [] ∧ h.positions.Pairwise (· < ·) := by
  induction fields with
  | nil =>
    intro previous
    rw [checkFields]
    cases previous <;> simp
  | cons h rest ih =>
    intro previous
    rw [checkFields, List.forall_mem_cons, List.map_cons, pairwise_toList_append]
    split
    · rename_i hprevious
      exact ⟨nofun, fun hall ↦ absurd hprevious (by rw [hall.1.1]; exact nofun)⟩
    · -- the field before is remembered for the rest, and the order of the rest is that of the list
      rename_i hprevious
      have hfalse : (previous.any fun f ↦ ¬ f < h.field) = false := by simpa using hprevious
      split
      · rename_i hbad
        refine ⟨nofun, fun hall ↦ ?_⟩
        rw [List.isEmpty_eq_false_iff.2 hall.2.1.1, neighbours_lt_iff.2 hall.2.1.2] at hbad
        exact absurd hbad nofun
      · rename_i hgood
        rw [Bool.or_eq_true, not_or, Bool.not_eq_true', Bool.not_eq_false, neighbours_lt_iff,
          List.isEmpty_iff] at hgood
        rw [ih]
        exact ⟨fun hall ↦ ⟨⟨hfalse, hall.1⟩, hgood, hall.2⟩, fun hall ↦ ⟨hall.1.2, hall.2.2⟩⟩

/-- **The check of a posting**, which also goes after the one before. -/
theorem checkPosting_eq_ok_iff {previous : Option Bytes} {p : Posting} :
    ix.checkPosting term previous p = .ok () ↔
      (previous.any fun d ↦ ¬ d < p.doc) = false ∧ p.IsSound ix := by
  rw [checkPosting]
  split
  · rename_i hprevious
    exact ⟨nofun, fun hall ↦ absurd hprevious (by rw [hall.1]; exact nofun)⟩
  · rename_i hprevious
    have hfalse : (previous.any fun d ↦ ¬ d < p.doc) = false := by simpa using hprevious
    split
    · rename_i hunknown
      exact ⟨nofun, fun hall ↦ absurd hunknown (by rw [hall.2.known]; exact nofun)⟩
    · rename_i hknown
      split
      · rename_i hempty
        exact ⟨nofun, fun hall ↦ absurd (List.isEmpty_iff.1 hempty) hall.2.nonempty⟩
      · rename_i hfields
        rw [Passes.check_bind_eq_ok_iff, checkFields_eq_ok_iff, Option.toList_none,
          List.nil_append, List.pairwise_map]
        constructor
        · intro ⟨hchecked, hfrequency⟩
          split at hfrequency
          · cases hfrequency
          · rename_i heq
            exact ⟨hfalse, by simpa using hknown, fun hnil ↦ hfields (List.isEmpty_iff.2 hnil),
              hchecked.1, hchecked.2, not_not.1 heq⟩
        · intro hall
          exact ⟨⟨hall.2.ordered, hall.2.positions⟩, if_neg (not_not.2 hall.2.frequency)⟩

/-- The check of the postings of a term. They are in order, also after the one before. -/
theorem checkPostings_eq_ok_iff {ps : Postings} : ∀ {previous : Option Bytes},
    ix.checkPostings term previous ps = .ok () ↔
      (previous.toList ++ ps.map (·.doc)).Pairwise (· < ·) ∧ ∀ p ∈ ps, p.IsSound ix := by
  induction ps with
  | nil =>
    intro previous
    rw [checkPostings]
    cases previous <;> simp
  | cons p rest ih =>
    intro previous
    rw [checkPostings, Passes.check_bind_eq_ok_iff, List.forall_mem_cons, List.map_cons,
      pairwise_toList_append, checkPosting_eq_ok_iff, ih]
    constructor
    · intro ⟨hp, hrest⟩
      exact ⟨⟨hp.1, hrest.1⟩, hp.2, hrest.2⟩
    · intro hall
      exact ⟨⟨hall.1.1, hall.2.1⟩, hall.1.2, hall.2.2⟩

theorem checkTerm_eq_ok_iff {e : Bytes × Postings} : ix.checkTerm e = .ok () ↔
    e.2 ≠ [] ∧ (e.2.Pairwise fun p q ↦ p.doc < q.doc) ∧ ∀ p ∈ e.2, p.IsSound ix := by
  rw [checkTerm]
  split
  · rename_i hempty
    exact ⟨nofun, fun hall ↦ absurd (List.isEmpty_iff.1 hempty) hall.1⟩
  · rename_i hsome
    rw [checkPostings_eq_ok_iff, Option.toList_none, List.nil_append, List.pairwise_map]
    exact ⟨fun hall ↦ ⟨fun hnil ↦ hsome (List.isEmpty_iff.2 hnil), hall⟩, fun hall ↦ hall.2⟩

theorem checkDocument_eq_ok_iff {e : Bytes × DocumentEntry} : ix.checkDocument e = .ok () ↔
    ∀ term ∈ e.2.terms, ix.hasTerm term = true := by
  rw [checkDocument]
  split
  · rename_i t hfound
    refine ⟨nofun, fun hall ↦ ?_⟩
    have hlacks : (!ix.hasTerm t) = true := by simpa using List.find?_some hfound
    rw [hall t (List.mem_of_find?_eq_some hfound)] at hlacks
    cases hlacks
  · rename_i hnone
    exact ⟨fun _ ↦ by simpa using hnone, fun _ ↦ rfl⟩

/-- **An index passes the check exactly if it is sound.** -/
theorem check_eq_ok_iff : ix.check = .ok () ↔ ix.IsSound := by
  have hcheck : ix.check = (do
      ix.terms.entries.forM ix.checkTerm
      ix.documents.entries.forM ix.checkDocument : Except IndexFault Unit) := rfl
  rw [hcheck, Passes.check_bind_eq_ok_iff, Passes.forM_eq_ok_iff, Passes.forM_eq_ok_iff]
  simp only [checkTerm_eq_ok_iff, checkDocument_eq_ok_iff]
  constructor
  · intro ⟨hterms, hdocuments⟩
    exact ⟨fun e he ↦ (hterms e he).1, fun e he ↦ (hterms e he).2.1,
      fun e he ↦ (hterms e he).2.2, hdocuments⟩
  · intro h
    exact ⟨fun e he ↦ ⟨h.nonempty e he, h.ordered e he, h.postings e he⟩, h.listed⟩

/-! ### Term by term -/

namespace IsSound

variable (h : ix.IsSound)

include h

/-- The postings of any term are in order. -/
theorem postings_ascending (term : Bytes) :
    (ix.postings term).Pairwise fun p q ↦ p.doc < q.doc := by
  rw [Index.postings]
  rcases hfind : ix.terms.find? term with _ | ps
  · exact .nil
  · exact h.ordered _ (Dict.find?_eq_some_iff.1 hfind)

/-- The postings of any term are sound. -/
theorem isSound_of_mem_postings {term : Bytes} {p : Posting} (hp : p ∈ ix.postings term) :
    p.IsSound ix := by
  rw [Index.postings] at hp
  rcases hfind : ix.terms.find? term with _ | ps
  · rw [hfind] at hp
    exact absurd hp List.not_mem_nil
  · rw [hfind] at hp
    exact h.postings _ (Dict.find?_eq_some_iff.1 hfind) p hp

theorem inOrder : ix.InOrder :=
  ⟨h.postings_ascending, fun _ _ hp ↦ (h.isSound_of_mem_postings hp).known⟩

end IsSound

end Index

end Concordance
