import Concordance.Matches
import Concordance.Proofs.Dict
import Concordance.Proofs.Passes

/-!
# Match lists as finite sets of documents

A match list in order is a finite map from documents to matches, read by `of?`. The merges are
described by what `of?` answers afterwards: a document of an intersection has the two matches
absorbed, a document of a union what either side has, and a difference takes documents away and
changes nothing else. Each merge keeps the order, which is what makes those descriptions true in
the first place: a document that is smaller than the head of a list is nowhere in it.

`Lists` then says of a match list that it is in order and which documents it has. Of several lists
a union can be made in many ways (`IsUnion`); the rounds of a balanced union are one of them.
-/

namespace Concordance.Matches

/-- The documents are in strictly ascending order. -/
abbrev Ordered (ms : Matches) : Prop :=
  ms.Pairwise fun m n ↦ m.doc < n.doc

/-- The match of a document. -/
def of? (ms : Matches) (id : Bytes) : Option Match :=
  ms.find? (·.doc == id)

variable {a b ms ns : Matches} {m n : Match} {id : Bytes}

/-- The test of the order tells whether matches are in order. -/
theorem isOrdered_iff : ms.isOrdered = true ↔ ms.Ordered := by
  induction ms with
  | nil => simp [isOrdered]
  | cons m ms ih =>
    cases ms with
    | nil => simp [isOrdered]
    | cons n ms =>
      rw [isOrdered, Bool.and_eq_true, ih, decide_eq_true_iff, Ordered, Ordered,
        pairwise_cons_cons_iff (r := fun m n : Match ↦ m.doc < n.doc) fun _ _ _ ↦ Bytes.lt_trans]

/-- In a list in order no document is there twice. -/
theorem Ordered.nodup (h : ms.Ordered) : (ms.map (·.doc)).Nodup :=
  (List.pairwise_map.2 h).imp Bytes.ne_of_lt

theorem of?_cons : of? (m :: ms) id = if m.doc = id then some m else ms.of? id := by
  rw [of?, List.find?_cons]
  by_cases h : m.doc = id
  · simp [h]
  · rw [if_neg h, beq_false_of_ne h]
    rfl

@[simp] theorem of?_nil : of? [] id = none := rfl

/-- A document is found exactly if it is listed. -/
theorem of?_isSome_iff : (ms.of? id).isSome ↔ id ∈ ms.map (·.doc) := by
  rw [of?, List.find?_isSome, List.mem_map]
  simp only [beq_iff_eq]

/-- A match list in order answers with its matches. -/
theorem of?_eq_some_iff (h : ms.Ordered) :
    ms.of? id = some m ↔ m ∈ ms ∧ m.doc = id := by
  constructor
  · intro hsome
    exact ⟨List.mem_of_find?_eq_some hsome, by simpa using List.find?_some hsome⟩
  · rintro ⟨hm, rfl⟩
    obtain ⟨n, hn⟩ := Option.isSome_iff_exists.1 (of?_isSome_iff.2 (List.mem_map_of_mem hm))
    have hdoc : n.doc = m.doc := by simpa using List.find?_some hn
    rw [hn, eq_of_key_eq h (List.mem_of_find?_eq_some hn) hm hdoc]

theorem mem_iff_of?_eq (h : ms.Ordered) : m ∈ ms ↔ ms.of? m.doc = some m := by
  rw [of?_eq_some_iff h, and_iff_left rfl]

theorem of?_eq_none_iff : ms.of? id = none ↔ id ∉ ms.map (·.doc) := by
  rw [← of?_isSome_iff, Option.not_isSome_iff_eq_none]

/-- A document smaller than all of a list is not in it. -/
theorem of?_eq_none_of_lt (h : ∀ m ∈ ms, id < m.doc) : ms.of? id = none := by
  rw [of?, List.find?_eq_none]
  intro m hm
  simpa using (Bytes.ne_of_lt (h m hm)).symm

/-- In a list in order the smaller documents do not reach beyond its head. -/
theorem of?_cons_eq_none (h : Ordered (n :: ns)) (hlt : id < n.doc) : of? (n :: ns) id = none :=
  of?_eq_none_of_lt <| List.forall_mem_cons.2
    ⟨hlt, fun x hx ↦ Bytes.lt_trans hlt ((List.pairwise_cons.1 h).1 x hx)⟩

/-! ### Intersection -/

/-- **The documents of both lists, each with both matches.** -/
theorem of?_intersect (ha : a.Ordered) (hb : b.Ordered) :
    (intersect a b).of? id = (a.of? id).bind fun m ↦ (b.of? id).map m.absorb := by
  fun_induction intersect a b with
  | case1 m ms n ns hlt ih =>
    rw [ih ha.of_cons hb, of?_cons (m := m)]
    split
    · rename_i hm
      rw [of?_cons_eq_none hb (hm ▸ hlt)]
      simp
    · rfl
  | case2 m ms n ns hlt hgt ih =>
    rw [ih ha hb.of_cons, of?_cons (m := n)]
    split
    · rename_i hn
      rw [of?_cons_eq_none ha (hn ▸ hgt)]
      simp
    · rfl
  | case3 m ms n ns hlt hgt ih =>
    have hdoc : n.doc = m.doc := (Bytes.eq_of_not_lt hlt hgt).symm
    have habsorb : (m.absorb n).doc = m.doc := rfl
    rw [of?_cons, ih ha.of_cons hb.of_cons, of?_cons (m := m), of?_cons (m := n), hdoc, habsorb]
    split <;> rfl
  | case4 a b h =>
    cases a with
    | nil => simp
    | cons m ms =>
      cases b with
      | nil => simp
      | cons n ns => exact absurd rfl (h m ms n ns rfl)

/-- An intersection keeps some documents of the first list, in their order. -/
theorem docs_intersect_sublist (a b : Matches) :
    ((intersect a b).map (·.doc)).Sublist (a.map (·.doc)) := by
  fun_induction intersect a b with
  | case1 m ms n ns hlt ih => exact ih.cons _
  | case2 m ms n ns hlt hgt ih => exact ih
  | case3 m ms n ns hlt hgt ih => exact ih.cons_cons _
  | case4 => exact List.nil_sublist _

/-- **Merges keep lists in order.** An intersection leaves documents out. -/
theorem Ordered.intersect (ha : a.Ordered) (b : Matches) : (intersect a b).Ordered :=
  List.pairwise_map.1 ((List.pairwise_map.2 ha).sublist (docs_intersect_sublist a b))

/-! ### Difference -/

/-- A difference keeps some matches of the first list as they are. -/
theorem subtract_sublist (a b : Matches) : (subtract a b).Sublist a := by
  fun_induction subtract a b with
  | case1 m ms n ns hgt ih => exact ih
  | case2 m ms n ns hgt hlt ih => exact ih.cons_cons _
  | case3 m ms n ns hgt hlt ih => exact ih.cons _
  | case4 => exact List.Sublist.refl _
  | case5 => exact List.nil_sublist _

/-- **A difference keeps the matches whose documents the second list lacks**, as they are and in
place. -/
theorem subtract_eq_filter (ha : a.Ordered) (hb : b.Ordered) :
    subtract a b = a.filter fun m ↦ !(b.of? m.doc).isSome := by
  fun_induction subtract a b with
  | case1 m ms n ns hgt ih =>
    -- the head of the second list comes before all that is left of the first
    rw [ih ha hb.of_cons]
    refine List.filter_congr fun x hx ↦ ?_
    have hlt : n.doc < x.doc := by
      rcases List.mem_cons.1 hx with rfl | hx
      · exact hgt
      · exact Bytes.lt_trans hgt ((List.pairwise_cons.1 ha).1 x hx)
    rw [of?_cons, if_neg (Bytes.ne_of_lt hlt)]
  | case2 m ms n ns hgt hlt ih =>
    rw [ih ha.of_cons hb, List.filter_cons_of_pos (by rw [of?_cons_eq_none hb hlt]; rfl)]
  | case3 m ms n ns hgt hlt ih =>
    have hdoc : n.doc = m.doc := Bytes.eq_of_not_lt hgt hlt
    rw [ih ha.of_cons hb, List.filter_cons_of_neg (by rw [of?_cons, if_pos hdoc]; simp)]
  | case4 => simp
  | case5 => rfl

/-- **The documents of the first list that the second lacks, their matches as they were.** -/
theorem of?_subtract (ha : a.Ordered) (hb : b.Ordered) :
    (subtract a b).of? id = if (b.of? id).isSome then none else a.of? id := by
  -- what the filter asks of a match of the document, it asks of the document
  have htest : ∀ m : Match, (!(b.of? m.doc).isSome) = true ∧ (m.doc == id) = true ↔
      (!(b.of? id).isSome) = true ∧ (m.doc == id) = true :=
    fun m ↦ and_congr_left fun hdoc ↦ by rw [eq_of_beq hdoc]
  rw [subtract_eq_filter ha hb, of?, List.find?_filter]
  simp only [htest]
  cases (b.of? id).isSome with
  | true => simp
  | false =>
    simp only [Bool.not_false, true_and, Bool.decide_eq_true, Bool.false_eq_true, if_false]
    rfl

/-- So does a difference. -/
theorem Ordered.subtract (ha : a.Ordered) (b : Matches) : (subtract a b).Ordered :=
  ha.sublist (subtract_sublist a b)

/-! ### Union -/

/-- **The documents of either list, with both matches where both have one.** -/
theorem of?_unite (ha : a.Ordered) (hb : b.Ordered) :
    (unite a b).of? id = Option.merge Match.absorb (a.of? id) (b.of? id) := by
  fun_induction unite a b with
  | case1 m ms n ns hlt ih =>
    rw [of?_cons, ih ha.of_cons hb, of?_cons (m := m)]
    split
    · -- the other list stands beyond the document
      rename_i hm
      rw [of?_cons_eq_none hb (hm ▸ hlt)]
      rfl
    · rfl
  | case2 m ms n ns hlt hgt ih =>
    rw [of?_cons, ih ha hb.of_cons, of?_cons (m := n)]
    split
    · rename_i hn
      rw [of?_cons_eq_none ha (hn ▸ hgt)]
      rfl
    · rfl
  | case3 m ms n ns hlt hgt ih =>
    have hdoc : n.doc = m.doc := (Bytes.eq_of_not_lt hlt hgt).symm
    have habsorb : (m.absorb n).doc = m.doc := rfl
    rw [of?_cons, ih ha.of_cons hb.of_cons, of?_cons (m := m), of?_cons (m := n), hdoc, habsorb]
    split <;> rfl
  | case4 => simp
  | case5 => simp

/-- A union has no document that neither list has. -/
theorem doc_mem_of_mem_unite (h : m ∈ unite a b) :
    m.doc ∈ a.map (·.doc) ∨ m.doc ∈ b.map (·.doc) := by
  fun_induction unite a b with
  | case1 m' ms n ns hlt ih =>
    rcases List.mem_cons.1 h with rfl | h
    · exact .inl List.mem_cons_self
    · exact (ih h).imp_left (List.mem_cons_of_mem _)
  | case2 m' ms n ns hlt hgt ih =>
    rcases List.mem_cons.1 h with rfl | h
    · exact .inr List.mem_cons_self
    · exact (ih h).imp_right (List.mem_cons_of_mem _)
  | case3 m' ms n ns hlt hgt ih =>
    rcases List.mem_cons.1 h with rfl | h
    · exact .inl List.mem_cons_self
    · exact (ih h).imp (List.mem_cons_of_mem _) (List.mem_cons_of_mem _)
  | case4 => exact .inr (List.mem_map_of_mem h)
  | case5 => exact .inl (List.mem_map_of_mem h)

/-- A union puts the documents of both lists in one order. -/
theorem Ordered.unite (ha : a.Ordered) (hb : b.Ordered) : (unite a b).Ordered := by
  have hall : ∀ {d : Bytes} {ms ns : Matches}, (∀ x ∈ ms, d < x.doc) → (∀ x ∈ ns, d < x.doc) →
      ∀ x ∈ Matches.unite ms ns, d < x.doc := by
    intro d ms ns hms hns x hx
    rcases doc_mem_of_mem_unite hx with h | h
    all_goals
      obtain ⟨y, hy, hdoc⟩ := List.mem_map.1 h
      rw [← hdoc]
      first
      | exact hms y hy
      | exact hns y hy
  -- the smaller head comes before all that is left of both lists
  fun_induction Matches.unite a b with
  | case1 m ms n ns hlt ih =>
    obtain ⟨hm, hms⟩ := List.pairwise_cons.1 ha
    have hns : ∀ x ∈ n :: ns, m.doc < x.doc := List.forall_mem_cons.2
      ⟨hlt, fun x hx ↦ Bytes.lt_trans hlt ((List.pairwise_cons.1 hb).1 x hx)⟩
    exact List.pairwise_cons.2 ⟨hall hm hns, ih hms hb⟩
  | case2 m ms n ns hlt hgt ih =>
    obtain ⟨hn, hns⟩ := List.pairwise_cons.1 hb
    have hms : ∀ x ∈ m :: ms, n.doc < x.doc := List.forall_mem_cons.2
      ⟨hgt, fun x hx ↦ Bytes.lt_trans hgt ((List.pairwise_cons.1 ha).1 x hx)⟩
    exact List.pairwise_cons.2 ⟨hall hms hn, ih ha hns⟩
  | case3 m ms n ns hlt hgt ih =>
    obtain ⟨hm, hms⟩ := List.pairwise_cons.1 ha
    obtain ⟨hn, hns⟩ := List.pairwise_cons.1 hb
    have hdoc : m.doc = n.doc := Bytes.eq_of_not_lt hlt hgt
    exact List.pairwise_cons.2 ⟨hall hm (hdoc ▸ hn), ih hms hns⟩
  | case4 => exact hb
  | case5 => exact ha

/-! ### The matches of a merge -/

/-- **The matches of an intersection** are two matches of one document each. -/
theorem mem_intersect_iff (ha : a.Ordered) (hb : b.Ordered) :
    m ∈ intersect a b ↔ ∃ x ∈ a, ∃ y ∈ b, x.doc = y.doc ∧ m = x.absorb y := by
  rw [mem_iff_of?_eq (ha.intersect b), of?_intersect ha hb]
  simp only [Option.bind_eq_some_iff, Option.map_eq_some_iff, of?_eq_some_iff ha,
    of?_eq_some_iff hb]
  constructor
  · rintro ⟨x, ⟨hx, hxm⟩, y, ⟨hy, hym⟩, rfl⟩
    exact ⟨x, hx, y, hy, hxm.trans hym.symm, rfl⟩
  · rintro ⟨x, hx, y, hy, hdoc, rfl⟩
    exact ⟨x, ⟨hx, rfl⟩, y, ⟨hy, hdoc.symm⟩, rfl⟩

/-- **The matches of a union** are those of documents that one list has, as they are, and two
matches of one document each. -/
theorem mem_unite_iff (ha : a.Ordered) (hb : b.Ordered) :
    m ∈ unite a b ↔ m ∈ a ∧ m.doc ∉ b.map (·.doc) ∨ m ∈ b ∧ m.doc ∉ a.map (·.doc) ∨
      ∃ x ∈ a, ∃ y ∈ b, x.doc = y.doc ∧ m = x.absorb y := by
  rw [mem_iff_of?_eq (ha.unite hb), of?_unite ha hb, Option.merge_eq_some_iff, of?_eq_none_iff,
    of?_eq_none_iff, ← mem_iff_of?_eq ha, ← mem_iff_of?_eq hb, and_comm (b := m ∈ b)]
  refine or_congr_right (or_congr_right ?_)
  simp only [of?_eq_some_iff ha, of?_eq_some_iff hb]
  constructor
  · rintro ⟨x, y, ⟨hx, hxm⟩, ⟨hy, hym⟩, rfl⟩
    exact ⟨x, hx, y, hy, hxm.trans hym.symm, rfl⟩
  · rintro ⟨x, hx, y, hy, hdoc, rfl⟩
    exact ⟨x, y, ⟨hx, rfl⟩, ⟨hy, hdoc.symm⟩, rfl⟩

/-- **The matches of a difference** are those of the first list, as they are. -/
theorem mem_subtract_iff (ha : a.Ordered) (hb : b.Ordered) :
    m ∈ subtract a b ↔ m ∈ a ∧ m.doc ∉ b.map (·.doc) := by
  rw [subtract_eq_filter ha hb, List.mem_filter, ← of?_isSome_iff]
  simp

/-! ### Which documents a list has -/

/-- The list is in order and its documents are those with a property. -/
structure Lists (ms : Matches) (p : Bytes → Prop) : Prop where
  ordered : ms.Ordered
  mem_iff : ∀ id, id ∈ ms.map (·.doc) ↔ p id

section Lists

variable {p q : Bytes → Prop}

theorem Lists.congr (h : ms.Lists p) (hpq : ∀ id, p id ↔ q id) : ms.Lists q :=
  ⟨h.ordered, fun id ↦ (h.mem_iff id).trans (hpq id)⟩

/-- The list without matches has no documents. -/
theorem lists_nil : Lists [] fun _ ↦ False :=
  ⟨.nil, fun id ↦ by simp⟩

/-- An intersection lists the documents of both lists. -/
theorem Lists.intersect (ha : a.Lists p) (hb : b.Lists q) :
    (intersect a b).Lists fun id ↦ p id ∧ q id := by
  refine ⟨ha.ordered.intersect b, fun id ↦ ?_⟩
  rw [← of?_isSome_iff, of?_intersect ha.ordered hb.ordered, ← ha.mem_iff, ← hb.mem_iff,
    ← of?_isSome_iff, ← of?_isSome_iff]
  cases a.of? id <;> cases b.of? id <;> simp

/-- A difference lists those of the first only. -/
theorem Lists.subtract (ha : a.Lists p) (hb : b.Lists q) :
    (subtract a b).Lists fun id ↦ p id ∧ ¬ q id := by
  refine ⟨ha.ordered.subtract b, fun id ↦ ?_⟩
  rw [← of?_isSome_iff, of?_subtract ha.ordered hb.ordered, ← ha.mem_iff, ← hb.mem_iff,
    ← of?_isSome_iff, ← of?_isSome_iff]
  cases b.of? id <;> simp

/-- A union lists those of either. -/
theorem Lists.unite (ha : a.Lists p) (hb : b.Lists q) :
    (unite a b).Lists fun id ↦ p id ∨ q id := by
  refine ⟨ha.ordered.unite hb.ordered, fun id ↦ ?_⟩
  rw [← of?_isSome_iff, of?_unite ha.ordered hb.ordered, ← ha.mem_iff, ← hb.mem_iff,
    ← of?_isSome_iff, ← of?_isSome_iff]
  cases a.of? id <;> cases b.of? id <;> simp

/-! ### Unions of several lists -/

/-- What is made of some lists by uniting lists that stand side by side, in whatever groups. -/
inductive IsUnion : List Matches → Matches → Prop
  | nil : IsUnion [] []
  | single (a : Matches) : IsUnion [a] a
  | unite {as bs : List Matches} {a b : Matches} (ha : IsUnion as a) (hb : IsUnion bs b) :
      IsUnion (as ++ bs) (unite a b)

/-- A union of lists that are unions themselves is one of all that went into these. -/
theorem IsUnion.flatten {lists : List Matches} {groups : List (List Matches)}
    (h : IsUnion lists ms) (hgroups : List.Forall₂ IsUnion groups lists) :
    IsUnion groups.flatten ms := by
  induction h generalizing groups with
  | nil =>
    obtain rfl := List.forall₂_nil_right_iff.1 hgroups
    exact .nil
  | single a =>
    obtain ⟨group, rest, hgroup, hrest, rfl⟩ := List.forall₂_cons_right_iff.1 hgroups
    obtain rfl := List.forall₂_nil_right_iff.1 hrest
    simpa using hgroup
  | @unite as bs _ _ _ _ iha ihb =>
    -- the groups of the first union come first
    rw [← List.take_append_drop as.length groups, List.flatten_append]
    exact .unite (iha (List.forall₂_take_append groups as bs hgroups))
      (ihb (List.forall₂_drop_append groups as bs hgroups))

/-- A round of uniting neighbours unites the lists in groups. -/
theorem exists_groups (lists : List Matches) :
    ∃ groups, List.Forall₂ IsUnion groups (uniteNeighbours lists) ∧ groups.flatten = lists := by
  fun_induction uniteNeighbours lists with
  | case1 a b rest ih =>
    obtain ⟨groups, hgroups, hflatten⟩ := ih
    exact ⟨[a, b] :: groups, .cons (.unite (.single a) (.single b)) hgroups, by simp [hflatten]⟩
  | case2 lists =>
    refine ⟨lists.map fun a ↦ [a], ?_, by rw [← List.flatMap_def, List.flatMap_singleton']⟩
    exact List.forall₂_map_left_iff.2 (List.forall₂_same.2 fun a _ ↦ .single a)

/-- **The rounds of a balanced union** unite its lists and nothing else. -/
theorem isUnion_uniteAll (lists : List Matches) : IsUnion lists (uniteAll lists) := by
  fun_induction uniteAll lists with
  | case1 => exact .nil
  | case2 a => exact .single a
  | case3 a b rest ih =>
    obtain ⟨groups, hgroups, hflatten⟩ := exists_groups (a :: b :: rest)
    exact hflatten ▸ ih.flatten hgroups

/-- **The documents of a union are those of all its lists**, however it was made. -/
theorem IsUnion.lists {lists : List Matches} (h : IsUnion lists ms)
    (hlists : ∀ l ∈ lists, l.Ordered) :
    ms.Lists fun id ↦ ∃ l ∈ lists, id ∈ l.map (·.doc) := by
  induction h with
  | nil => exact lists_nil.congr fun id ↦ by simp
  | single a => exact ⟨hlists a List.mem_cons_self, fun id ↦ by simp⟩
  | unite _ _ iha ihb =>
    obtain ⟨has, hbs⟩ := List.forall_mem_append.1 hlists
    exact ((iha has).unite (ihb hbs)).congr fun id ↦ by simp [or_and_right, exists_or]

/-- So if each list has the documents of one element, the union has those of any. -/
theorem Lists.uniteAll {α : Type} {l : List α} {lists : List Matches} {p : α → Bytes → Prop}
    (h : List.Forall₂ (fun x ms ↦ Lists ms (p x)) l lists) :
    (Matches.uniteAll lists).Lists fun id ↦ ∃ x ∈ l, p x id := by
  have hordered : ∀ ms ∈ lists, ms.Ordered :=
    Passes.forall_mem_of_forall₂ h fun _ _ hx ↦ hx.ordered
  refine ((isUnion_uniteAll lists).lists hordered).congr fun id ↦ ?_
  clear hordered
  induction h with
  | nil => simp
  | cons hx _ ih => simp only [List.exists_mem_cons_iff, hx.mem_iff, ih]

end Lists

end Concordance.Matches
