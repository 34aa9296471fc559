import Concordance.Bytes

/-!
# Sorted dictionaries

A dictionary maps finitely many byte strings to values. It is kept as a list of entries with
strictly ascending keys, so listing it gives the keys in order and two dictionaries with the same
entries are equal.

The operations are single passes over the list; each is followed by what it does to `find?`, which
is all that is needed of it later.
-/

namespace Concordance

/-- A finite map from byte strings, listed by ascending key. -/
structure Dict (β : Type) where
  entries : List (Bytes × β)
  ascending : entries.Pairwise fun a b ↦ a.1 < b.1

namespace Dict

variable {β γ : Type}

@[ext] theorem ext {d e : Dict β} (h : d.entries = e.entries) : d = e := by
  cases d; cases e; cases h; rfl

instance [DecidableEq β] : DecidableEq (Dict β) := fun d e ↦
  decidable_of_iff (d.entries = e.entries) ⟨ext, fun h ↦ h ▸ rfl⟩

/-- The dictionary without entries. -/
def empty : Dict β :=
  ⟨[], .nil⟩

instance : EmptyCollection (Dict β) :=
  ⟨empty⟩

instance : Inhabited (Dict β) :=
  ⟨empty⟩

/-- The keys, in ascending order. -/
def keys (d : Dict β) : List Bytes :=
  d.entries.map (·.1)

/-- The values, by ascending key. -/
def values (d : Dict β) : List β :=
  d.entries.map (·.2)

/-- How many keys there are. -/
def size (d : Dict β) : Nat :=
  d.entries.length

/-- Whether there are no keys. -/
def isEmpty (d : Dict β) : Bool :=
  d.entries.isEmpty

/-- The first value that a list of entries has for a key. -/
def lookup (k : Bytes) : List (Bytes × β) → Option β
  | [] => none
  | (k', v) :: rest => if k' = k then some v else lookup k rest

/-- The value of a key. -/
def find? (d : Dict β) (k : Bytes) : Option β :=
  lookup k d.entries

/-- Whether a key has a value. -/
def contains (d : Dict β) (k : Bytes) : Bool :=
  (d.find? k).isSome

/-! ### Insertion -/

/-- Entries with the value of one key set. -/
def insertEntry (k : Bytes) (v : β) : List (Bytes × β) → List (Bytes × β)
  | [] => [(k, v)]
  | (k', v') :: rest =>
    if k < k' then (k, v) :: (k', v') :: rest
    else if k = k' then (k, v) :: rest
    else (k', v') :: insertEntry k v rest

/-- What insertion leaves in the list was there before or is the new entry. -/
theorem mem_insertEntry {k : Bytes} {v : β} {e : Bytes × β} {l : List (Bytes × β)}
    (h : e ∈ insertEntry k v l) : e = (k, v) ∨ e ∈ l := by
  induction l with
  | nil => simpa [insertEntry] using h
  | cons hd rest ih =>
    obtain ⟨k', v'⟩ := hd
    simp only [insertEntry] at h
    split at h
    · simpa using h
    · split at h
      · exact (List.mem_cons.1 h).imp_right (List.mem_cons_of_mem _)
      · rcases List.mem_cons.1 h with h | h
        · exact .inr (h ▸ List.mem_cons_self)
        · exact (ih h).imp_right (List.mem_cons_of_mem _)

/-- **Insertion keeps the keys strictly ascending.** -/
theorem insertEntry_ascending (k : Bytes) (v : β) {l : List (Bytes × β)}
    (h : l.Pairwise fun a b ↦ a.1 < b.1) :
    (insertEntry k v l).Pairwise fun a b ↦ a.1 < b.1 := by
  induction l with
  | nil => simp [insertEntry]
  | cons hd rest ih =>
    obtain ⟨k', v'⟩ := hd
    have hrest := List.pairwise_cons.1 h
    simp only [insertEntry]
    split
    case isTrue hlt =>
      refine List.pairwise_cons.2 ⟨fun e he ↦ ?_, h⟩
      rcases List.mem_cons.1 he with he | he
      · exact he ▸ hlt
      · exact Bytes.lt_trans hlt (hrest.1 e he)
    case isFalse hlt =>
      split
      case isTrue heq => exact List.pairwise_cons.2 ⟨heq ▸ hrest.1, hrest.2⟩
      case isFalse hne =>
        refine List.pairwise_cons.2 ⟨fun e he ↦ ?_, ih hrest.2⟩
        rcases mem_insertEntry he with he | he
        · exact he ▸ Bytes.lt_of_not_lt_of_ne hlt hne
        · exact hrest.1 e he

/-- The dictionary with the value of one key set. -/
def insert (d : Dict β) (k : Bytes) (v : β) : Dict β :=
  ⟨insertEntry k v d.entries, insertEntry_ascending k v d.ascending⟩

/-- The dictionary of a list of entries; a later entry for the same key wins. -/
def ofList (l : List (Bytes × β)) : Dict β :=
  l.foldl (fun d e ↦ d.insert e.1 e.2) ∅

/-- The dictionary with a key taken out. -/
def erase (d : Dict β) (k : Bytes) : Dict β :=
  ⟨d.entries.filter fun e ↦ e.1 ≠ k, d.ascending.filter _⟩

/-! ### Lookup after an update -/

@[simp] theorem find?_empty (k : Bytes) : (∅ : Dict β).find? k = none := rfl

theorem lookup_insertEntry (k k' : Bytes) (v : β) (l : List (Bytes × β)) :
    lookup k' (insertEntry k v l) = if k = k' then some v else lookup k' l := by
  induction l with
  | nil => simp [insertEntry, lookup]
  | cons hd rest ih =>
    obtain ⟨k'', v''⟩ := hd
    simp only [insertEntry]
    split
    · simp [lookup]
    · split
      · rename_i heq
        subst heq
        by_cases h : k = k' <;> simp [lookup, h]
      · rename_i hne
        by_cases h : k'' = k'
        · subst h
          simp [lookup, hne]
        · simp [lookup, h, ih]

/-- **Insertion sets the value of its key and of no other.** -/
theorem find?_insert (d : Dict β) (k k' : Bytes) (v : β) :
    (d.insert k v).find? k' = if k = k' then some v else d.find? k' :=
  lookup_insertEntry k k' v d.entries

theorem lookup_filter_ne (k k' : Bytes) (l : List (Bytes × β)) :
    lookup k' (l.filter fun e ↦ e.1 ≠ k) = if k = k' then none else lookup k' l := by
  induction l with
  | nil => simp [lookup]
  | cons hd rest ih =>
    obtain ⟨k'', v''⟩ := hd
    by_cases h : k'' = k
    · subst h
      simp only [ne_eq, not_true_eq_false, decide_false, Bool.false_eq_true, not_false_eq_true,
        List.filter_cons_of_neg]
      rw [ih]
      by_cases hk : k'' = k' <;> simp [lookup, hk]
    · simp only [ne_eq, h, not_false_eq_true, decide_true, List.filter_cons_of_pos, lookup]
      rw [ih]
      by_cases hk : k'' = k'
      · subst hk
        simp [Ne.symm h]
      · simp [hk]

/-- **Erasing takes out its key and no other.** -/
theorem find?_erase (d : Dict β) (k k' : Bytes) :
    (d.erase k).find? k' = if k = k' then none else d.find? k' :=
  lookup_filter_ne k k' d.entries

end Dict

/-! ### Sets -/

/-- A finite set of byte strings: a dictionary that carries no values. -/
abbrev ByteSet := Dict Unit

namespace ByteSet

/-- The set of the members of a list. -/
def ofList (l : List Bytes) : ByteSet :=
  l.foldl (fun s k ↦ Dict.insert s k ()) ∅

/-- The members, in ascending order. -/
def toList (s : ByteSet) : List Bytes :=
  Dict.keys s

/-- All members of both sets. -/
def union (s t : ByteSet) : ByteSet :=
  t.toList.foldl (fun u k ↦ Dict.insert u k ()) s

end ByteSet

end Concordance
