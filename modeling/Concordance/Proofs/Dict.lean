import Concordance.Dict
import Mathlib.Algebra.BigOperators.Group.List.Basic
import Mathlib.Algebra.Ring.Nat
import Mathlib.Data.List.Basic

/-!
# Dictionaries by what they answer

A dictionary is known by its answers: two that give the same value for every key are the same
list of entries (`ext_find?`), because strictly ascending lists with the same members are equal.
So an operation on dictionaries, or a whole pass over one, is described here by what `find?`
answers afterwards, and an equation between dictionaries is proved key by key.

The same holds of sets of byte strings, where the answer is whether a member is there.
-/

namespace Concordance

/-- **Lists that ascend strictly by a key are equal when they have the same members.** -/
theorem eq_of_ascending {α : Type} {key : α → Bytes} {l l' : List α}
    (h : l.Pairwise fun a b ↦ key a < key b) (h' : l'.Pairwise fun a b ↦ key a < key b)
    (hmem : ∀ x, x ∈ l ↔ x ∈ l') : l = l' := by
  have hne : ∀ {a b : α}, key a < key b → a ≠ b :=
    fun hab heq ↦ Bytes.lt_irrefl _ (heq ▸ hab)
  have hperm : l.Perm l' :=
    (List.perm_ext_iff_of_nodup (h.imp hne) (h'.imp hne)).2 hmem
  exact hperm.eq_of_pairwise
    (fun a b _ _ hab hba ↦ absurd (Bytes.lt_trans hab hba) (Bytes.lt_irrefl _)) h h'

/-- A list is in a transitive order exactly if its neighbours are. -/
theorem pairwise_cons_cons_iff {α : Type} {r : α → α → Prop}
    (htrans : ∀ a b c, r a b → r b c → r a c) {a b : α} {l : List α} :
    (a :: b :: l).Pairwise r ↔ r a b ∧ (b :: l).Pairwise r := by
  rw [List.pairwise_cons (a := a)]
  refine and_congr_left fun h ↦ ⟨fun hall ↦ hall b List.mem_cons_self, fun hab ↦ ?_⟩
  exact List.forall_mem_cons.2 ⟨hab, fun c hc ↦ htrans a b c hab ((List.pairwise_cons.1 h).1 c hc)⟩

/-- In a list that ascends strictly by a key, a key has one element. -/
theorem eq_of_key_eq {α : Type} {key : α → Bytes} {l : List α}
    (h : l.Pairwise fun a b ↦ key a < key b) {x y : α} (hx : x ∈ l) (hy : y ∈ l)
    (hkey : key x = key y) : x = y := by
  induction l with
  | nil => exact absurd hx List.not_mem_nil
  | cons z l ih =>
    obtain ⟨hz, hl⟩ := List.pairwise_cons.1 h
    rcases List.mem_cons.1 hx with hxz | hx <;> rcases List.mem_cons.1 hy with hyz | hy
    · rw [hxz, hyz]
    · exact absurd (hxz ▸ hkey) (Bytes.ne_of_lt (hz y hy))
    · exact absurd (hyz ▸ hkey).symm (Bytes.ne_of_lt (hz x hx))
    · exact ih hl hx hy

namespace Dict

variable {β γ : Type}

/-! ### Entries and answers -/

/-- What is found is in the list. -/
theorem mem_of_lookup {k : Bytes} {v : β} {l : List (Bytes × β)} (h : lookup k l = some v) :
    (k, v) ∈ l := by
  induction l with
  | nil => simp [lookup] at h
  | cons e l ih =>
    obtain ⟨k', v'⟩ := e
    rw [lookup] at h
    split at h
    · rename_i hk
      rw [← hk, ← Option.some.inj h]
      exact List.mem_cons_self
    · exact List.mem_cons_of_mem _ (ih h)

/-- A key that some entry has is found. -/
theorem exists_lookup_of_mem {k : Bytes} {v : β} {l : List (Bytes × β)} (h : (k, v) ∈ l) :
    ∃ w, lookup k l = some w := by
  induction l with
  | nil => exact absurd h List.not_mem_nil
  | cons e l ih =>
    obtain ⟨k', v'⟩ := e
    rw [lookup]
    split
    · exact ⟨v', rfl⟩
    · rename_i hk
      rcases List.mem_cons.1 h with heq | h
      · exact absurd (Prod.mk.inj heq).1.symm hk
      · exact ih h

/-- **A dictionary answers with its entries.** -/
theorem find?_eq_some_iff {d : Dict β} {k : Bytes} {v : β} :
    d.find? k = some v ↔ (k, v) ∈ d.entries := by
  constructor
  · exact mem_of_lookup
  · intro h
    obtain ⟨w, hw⟩ := exists_lookup_of_mem h
    have heq : (k, w) = (k, v) := eq_of_key_eq d.ascending (mem_of_lookup hw) h rfl
    rw [find?, hw, (Prod.mk.inj heq).2]

/-- **Dictionaries that answer alike are equal.** -/
theorem ext_find? {d e : Dict β} (h : ∀ k, d.find? k = e.find? k) : d = e := by
  refine Dict.ext (eq_of_ascending d.ascending e.ascending fun x ↦ ?_)
  rw [← find?_eq_some_iff, ← find?_eq_some_iff, h]

/-- The keys are those under which something is found. -/
theorem mem_keys_iff {d : Dict β} {k : Bytes} : k ∈ d.keys ↔ ∃ v, d.find? k = some v := by
  simp only [keys, List.mem_map, Prod.exists, find?_eq_some_iff]
  constructor
  · rintro ⟨k', v, hmem, rfl⟩
    exact ⟨v, hmem⟩
  · rintro ⟨v, hmem⟩
    exact ⟨k, v, hmem, rfl⟩

/-- The values are what is found. -/
theorem mem_values_iff {d : Dict β} {v : β} : v ∈ d.values ↔ ∃ k, d.find? k = some v := by
  simp only [values, List.mem_map, Prod.exists, find?_eq_some_iff]
  constructor
  · rintro ⟨k, v', hmem, rfl⟩
    exact ⟨k, hmem⟩
  · rintro ⟨k, hmem⟩
    exact ⟨k, v, hmem, rfl⟩

theorem contains_iff {d : Dict β} {k : Bytes} : d.contains k = true ↔ k ∈ d.keys := by
  rw [contains, Option.isSome_iff_exists, mem_keys_iff]

theorem size_pos_of_contains {d : Dict β} {k : Bytes} (h : d.contains k = true) : 0 < d.size := by
  have hpos := List.length_pos_of_mem (contains_iff.1 h)
  rwa [keys, List.length_map] at hpos

/-- The keys ascend strictly. -/
theorem keys_ascending (d : Dict β) : d.keys.Pairwise (· < ·) :=
  List.pairwise_map.2 d.ascending

/-- Under other keys nothing is found. -/
theorem find?_eq_none_iff {d : Dict β} {k : Bytes} : d.find? k = none ↔ k ∉ d.keys := by
  rw [← contains_iff, contains]
  simp

/-! ### Insertion -/

/-- A key that is set is new or was there. -/
theorem mem_keys_insert {d : Dict β} {k k' : Bytes} {v : β} :
    k' ∈ (d.insert k v).keys ↔ k' = k ∨ k' ∈ d.keys := by
  simp only [mem_keys_iff, find?_insert]
  split
  · rename_i h
    simp [h]
  · rename_i h
    simp [Ne.symm h]

/-- A key that is set and then erased leaves what was there before, if it is new. -/
theorem erase_insert_of_notMem {d : Dict β} {k : Bytes} {v : β} (h : k ∉ d.keys) :
    (d.insert k v).erase k = d := by
  refine ext_find? fun k' ↦ ?_
  rw [find?_erase, find?_insert]
  split
  · rename_i hk
    exact hk ▸ (find?_eq_none_iff.2 h).symm
  · rfl

/-- A key that is erased and then set is set. -/
theorem insert_erase (d : Dict β) (k : Bytes) (v : β) : (d.erase k).insert k v = d.insert k v := by
  refine ext_find? fun k' ↦ ?_
  rw [find?_insert, find?_insert, find?_erase]
  split <;> rfl

/-- What is found after a key has been erased was there, under another key. -/
theorem find?_erase_eq_some_iff {d : Dict β} {k k' : Bytes} {v : β} :
    (d.erase k).find? k' = some v ↔ k ≠ k' ∧ d.find? k' = some v := by
  rw [find?_erase]
  split
  · rename_i hk
    simp [hk]
  · rename_i hk
    simp [hk]

/-- Taking out what is not there changes nothing. -/
theorem erase_of_notMem {d : Dict β} {k : Bytes} (h : k ∉ d.keys) : d.erase k = d := by
  refine ext_find? fun k' ↦ ?_
  rw [find?_erase]
  split
  · rename_i hk
    exact hk ▸ (find?_eq_none_iff.2 h).symm
  · rfl

theorem notMem_keys_erase (d : Dict β) (k : Bytes) : k ∉ (d.erase k).keys := by
  rw [← find?_eq_none_iff, find?_erase, if_pos rfl]

/-- The entries are, up to their order, the entry of a key and those of the other keys. -/
theorem entries_perm {d : Dict β} {k : Bytes} {v : β} (h : d.find? k = some v) :
    d.entries.Perm ((k, v) :: (d.erase k).entries) := by
  have hne : ∀ e : Dict β, e.entries.Nodup := fun e ↦
    e.ascending.imp fun hlt heq ↦ Bytes.ne_of_lt hlt (congrArg _ heq)
  have hnot : (k, v) ∉ (d.erase k).entries := fun hmem ↦
    notMem_keys_erase d k (List.mem_map.2 ⟨_, hmem, rfl⟩)
  refine (List.perm_ext_iff_of_nodup (hne d) (List.nodup_cons.2 ⟨hnot, hne _⟩)).2 fun e ↦ ?_
  obtain ⟨k', v'⟩ := e
  rw [List.mem_cons, ← find?_eq_some_iff, ← find?_eq_some_iff, find?_erase]
  by_cases hk : k = k'
  · subst hk
    simp [h, eq_comm]
  · simp [hk, Ne.symm hk]

/-- A sum over all values is the part of one key and that of the others. -/
theorem sum_values {d : Dict β} {k : Bytes} {v : β} (f : β → Nat) (h : d.find? k = some v) :
    (d.values.map f).sum = f v + ((d.erase k).values.map f).sum := by
  have hperm : d.values.Perm (v :: (d.erase k).values) := (entries_perm h).map Prod.snd
  rw [(hperm.map f).sum_nat, List.map_cons, List.sum_cons]

/-- The entries after a new key has been set are, up to their order, one more. -/
theorem entries_insert_perm {d : Dict β} {k : Bytes} {v : β} (h : k ∉ d.keys) :
    (d.insert k v).entries.Perm ((k, v) :: d.entries) := by
  have hperm := entries_perm (d := d.insert k v) (k := k) (v := v)
    (by rw [find?_insert, if_pos rfl])
  rwa [erase_insert_of_notMem h] at hperm

/-- A new key is one more. -/
theorem size_insert {d : Dict β} {k : Bytes} {v : β} (h : k ∉ d.keys) :
    (d.insert k v).size = d.size + 1 :=
  (entries_insert_perm h).length_eq

theorem length_insertEntry_le (k : Bytes) (v : β) (l : List (Bytes × β)) :
    (insertEntry k v l).length ≤ l.length + 1 := by
  induction l with
  | nil => exact Nat.le_refl 1
  | cons e l ih =>
    obtain ⟨k', v'⟩ := e
    rw [insertEntry]
    split
    · exact Nat.le_refl _
    · split
      · exact Nat.le_succ _
      · exact Nat.succ_le_succ ih

/-- A dictionary has no more entries than the list of which it is made. -/
theorem size_ofList_le (l : List (Bytes × β)) : (ofList l).size ≤ l.length := by
  have key : ∀ d : Dict β, (l.foldl (fun d e ↦ d.insert e.1 e.2) d).size ≤ d.size + l.length := by
    induction l with
    | nil => exact fun d ↦ Nat.le_refl _
    | cons e l ih =>
      intro d
      have hinsert : (d.insert e.1 e.2).size ≤ d.size + 1 := length_insertEntry_le _ _ _
      have hrest := ih (d.insert e.1 e.2)
      rw [List.foldl_cons, List.length_cons]
      omega
  exact Nat.le_trans (key ∅) (Nat.le_of_eq (Nat.zero_add _))

/-- Setting the keys of a list one after another: the value of a key of the list is the one that it
has there, if the list has no key twice. -/
theorem find?_foldl_insert {l : List (Bytes × β)} (hl : (l.map (·.1)).Nodup) (d : Dict β)
    {k : Bytes} {v : β} :
    (l.foldl (fun d e ↦ d.insert e.1 e.2) d).find? k = some v ↔
      (k, v) ∈ l ∨ k ∉ l.map (·.1) ∧ d.find? k = some v := by
  induction l generalizing d with
  | nil => simp
  | cons e l ih =>
    obtain ⟨k', v'⟩ := e
    rw [List.map_cons] at hl
    obtain ⟨hk', hl⟩ := List.nodup_cons.1 hl
    rw [List.foldl_cons, ih hl, find?_insert]
    by_cases hk : k' = k
    · subst hk
      have hmem : ∀ w, (k', w) ∉ l := fun w hw ↦ hk' (List.mem_map.2 ⟨_, hw, rfl⟩)
      simp [hmem, hk', eq_comm]
    · simp [hk, Ne.symm hk]

/-- A list without repeated keys answers as the dictionary made of it. -/
theorem find?_ofList {l : List (Bytes × β)} (hl : (l.map (·.1)).Nodup) {k : Bytes} {v : β} :
    (ofList l).find? k = some v ↔ (k, v) ∈ l := by
  rw [ofList, find?_foldl_insert hl]
  simp

/-- **The dictionary of its own entries is the dictionary itself.** -/
theorem ofList_entries (d : Dict β) : ofList d.entries = d := by
  have hnodup : (d.entries.map (·.1)).Nodup :=
    d.keys_ascending.imp Bytes.ne_of_lt
  refine ext_find? fun k ↦ Option.ext fun v ↦ ?_
  rw [find?_ofList hnodup, find?_eq_some_iff]

theorem ofList_concat (l : List (Bytes × β)) (e : Bytes × β) :
    ofList (l ++ [e]) = (ofList l).insert e.1 e.2 :=
  List.foldl_concat ..

/-- The keys of a dictionary that is made of a list are those in the list. -/
theorem mem_keys_ofList {l : List (Bytes × β)} {k : Bytes} :
    k ∈ (ofList l).keys ↔ k ∈ l.map (·.1) := by
  have key : ∀ d : Dict β, k ∈ (l.foldl (fun d e ↦ d.insert e.1 e.2) d).keys ↔
      k ∈ l.map (·.1) ∨ k ∈ d.keys := by
    induction l with
    | nil => simp
    | cons e l ih =>
      intro d
      rw [List.foldl_cons, ih, mem_keys_insert, List.map_cons, List.mem_cons]
      tauto
  rw [ofList, key]
  simp [mem_keys_iff]

/-- While the entries of a dictionary are set in order, each key is new. -/
theorem contains_ofList_before {d : Dict β} {before after : List (Bytes × β)} {e : Bytes × β}
    (h : d.entries = before ++ e :: after) : (ofList before).contains e.1 = false := by
  have hascending : (before ++ e :: after).Pairwise fun a b ↦ a.1 < b.1 := h ▸ d.ascending
  rw [← Bool.not_eq_true, contains_iff, mem_keys_ofList, List.mem_map]
  intro ⟨e', he', hkey⟩
  have hlt : e'.1 < e.1 := (List.pairwise_append.1 hascending).2.2 e' he' e List.mem_cons_self
  exact Bytes.ne_of_lt hlt hkey

/-! ### Values changed alike -/

/-- The dictionary whose values are made from the keys and values of another. -/
def mapValues (f : Bytes → β → γ) (d : Dict β) : Dict γ where
  entries := d.entries.map fun e ↦ (e.1, f e.1 e.2)
  ascending := List.pairwise_map.2 d.ascending

@[simp] theorem keys_mapValues (f : Bytes → β → γ) (d : Dict β) :
    (d.mapValues f).keys = d.keys := by
  simp [keys, mapValues, Function.comp_def]

@[simp] theorem find?_mapValues (f : Bytes → β → γ) (d : Dict β) (k : Bytes) :
    (d.mapValues f).find? k = (d.find? k).map (f k) := by
  refine Option.ext fun w ↦ ?_
  rw [find?_eq_some_iff, Option.map_eq_some_iff]
  simp only [mapValues, List.mem_map, Prod.mk.injEq, Prod.exists, find?_eq_some_iff]
  constructor
  · rintro ⟨k', v, hmem, rfl, rfl⟩
    exact ⟨v, hmem, rfl⟩
  · rintro ⟨v, hmem, rfl⟩
    exact ⟨k, v, hmem, rfl, rfl⟩

/-- Values may be changed before or after one is set. -/
theorem mapValues_insert (f : Bytes → β → γ) (d : Dict β) (k : Bytes) (v : β) :
    (d.insert k v).mapValues f = (d.mapValues f).insert k (f k v) := by
  refine ext_find? fun k' ↦ ?_
  simp only [find?_insert, find?_mapValues]
  split
  · rename_i hk
    rw [hk]
    rfl
  · rfl

/-- They may be changed before or after one is taken out. -/
theorem mapValues_erase (f : Bytes → β → γ) (d : Dict β) (k : Bytes) :
    (d.erase k).mapValues f = (d.mapValues f).erase k := by
  refine ext_find? fun k' ↦ ?_
  simp only [find?_erase, find?_mapValues]
  split <;> rfl

end Dict

/-! ### Sets -/

namespace ByteSet

/-- Members put in one after another. -/
theorem mem_keys_foldl_insert {l : List Bytes} {s : ByteSet} {k : Bytes} :
    k ∈ Dict.keys (l.foldl (fun s k ↦ Dict.insert s k ()) s) ↔ k ∈ l ∨ k ∈ Dict.keys s := by
  induction l generalizing s with
  | nil => simp
  | cons k' l ih =>
    rw [List.foldl_cons, ih, Dict.mem_keys_insert, List.mem_cons]
    tauto

/-- **The set of a list has its members.** -/
@[simp] theorem mem_toList_ofList {l : List Bytes} {k : Bytes} :
    k ∈ (ofList l).toList ↔ k ∈ l := by
  rw [ofList, toList, mem_keys_foldl_insert]
  simp [Dict.mem_keys_iff]

/-- **A union has the members of both sets.** -/
@[simp] theorem mem_toList_union {s t : ByteSet} {k : Bytes} :
    k ∈ (s.union t).toList ↔ k ∈ s.toList ∨ k ∈ t.toList := by
  rw [union, toList, mem_keys_foldl_insert, or_comm]
  rfl

/-- Sets with the same members are equal. -/
theorem ext_toList {s t : ByteSet} (h : ∀ k, k ∈ s.toList ↔ k ∈ t.toList) : s = t := by
  have hmem : ∀ (s : ByteSet) k (u : Unit), Dict.find? s k = some u ↔ k ∈ s.toList :=
    fun s k u ↦ ⟨fun hu ↦ Dict.mem_keys_iff.2 ⟨u, hu⟩, fun hk ↦
      (Dict.mem_keys_iff.1 hk).choose_spec⟩
  exact Dict.ext_find? fun k ↦ Option.ext fun u ↦ by rw [hmem, hmem, h]

@[simp] theorem empty_union (s : ByteSet) : union ∅ s = s :=
  ext_toList fun _ ↦ mem_toList_union.trans (or_iff_right List.not_mem_nil)

@[simp] theorem contains_ofList {l : List Bytes} {k : Bytes} :
    (ofList l).contains k = true ↔ k ∈ l := by
  rw [Dict.contains_iff]
  exact mem_toList_ofList

/-- The members of a set ascend strictly. -/
theorem toList_ascending (s : ByteSet) : s.toList.Pairwise (· < ·) :=
  s.keys_ascending

end ByteSet

end Concordance
