import Concordance.Proofs.Reflection

/-!
# The numbers that an index keeps

Beside its postings an index keeps numbers: how many tokens each field of a document has, and how
many there are in all documents together. They are not counted anew when something changes. The
length of a document that is taken out is subtracted from the number of all tokens, and that of one
that is put in is added. So the numbers are right only if what is subtracted is what was added, and
if a document that is replaced is subtracted at all.

They are right after any history (`tallies_atEnd`). The length of a document is a word of 32 bits
and the number of all tokens one of 64: what is kept is the sum of the lengths as they are, which is
the number of tokens if each document has few enough of them (`Corpus.tokenTotal_of_fits`).
-/

namespace Concordance

variable {a : Analyzer} {ix ix' : Index} {c : Corpus} {id : Bytes} {fields : Dict Bytes}

/-! ### All tokens of a corpus -/

namespace Corpus

/-- The number of tokens of all documents, where each document has as many as 32 bits can tell. -/
def tokenTotal (a : Analyzer) (c : Corpus) : Nat :=
  (c.values.map fun fields ↦ (size a fields).toUInt32.toNat).sum

/-- If the tokens of each document can be counted with 32 bits, this is the number of tokens. -/
theorem tokenTotal_of_fits (h : c.Fits a) : c.tokenTotal a = (c.values.map (size a)).sum :=
  congrArg List.sum (List.map_congr_left fun fields hfields ↦
    toNat_toUInt32_of_lt (h fields hfields))

/-- A document has its part of the tokens, and the others have the rest. -/
theorem tokenTotal_eq_add (hfind : c.find? id = some fields) :
    c.tokenTotal a = tokenTotal a (c.erase id) + (size a fields).toUInt32.toNat := by
  rw [tokenTotal, Dict.sum_values _ hfind, Nat.add_comm]
  rfl

/-- A document that is put in adds its part to what the others have. -/
theorem tokenTotal_insert (a : Analyzer) (c : Corpus) (id : Bytes) (fields : Dict Bytes) :
    tokenTotal a (c.insert id fields) =
      tokenTotal a (c.erase id) + (size a fields).toUInt32.toNat := by
  have hfind : (c.insert id fields).find? id = some fields := by rw [Dict.find?_insert, if_pos rfl]
  have hothers : (c.insert id fields).erase id = c.erase id := by
    rw [← Dict.insert_erase, Dict.erase_insert_of_notMem (Dict.notMem_keys_erase c id)]
  rw [tokenTotal_eq_add hfind, hothers]

/-- The part of a document is the length that is kept of it. -/
theorem toUInt64_length_entry (a : Analyzer) (fields : Dict Bytes) :
    (entry a fields).length.toUInt64 = (size a fields).toUInt32.toNat.toUInt64 := by
  rw [length_entry]
  exact (UInt64.ofNat_uInt32ToNat _).symm

end Corpus

/-! ### The tallies of an index -/

/-- An index that reflects a corpus and has the right numbers for it. -/
structure Index.Tallies (ix : Index) (a : Analyzer) (c : Corpus) : Prop
    extends ix.Reflects a c where
  entries : ix.documents = c.mapValues fun _ ↦ Corpus.entry a
  tokens : ix.tokens = (c.tokenTotal a).toUInt64

namespace Index.Tallies

variable (h : ix.Tallies a c)

include h

/-- **The tokens of a document that is taken out are subtracted**, and they are those that were
added for it. -/
theorem exists_retract (id : Bytes) :
    ∃ ix', ix.retract id = .ok ix' ∧ ix'.Tallies a (c.erase id) := by
  obtain ⟨ix', hok, hreflects⟩ := h.toReflects.exists_retract id
  refine ⟨ix', hok, hreflects, ?_, ?_⟩
  · rw [documents_of_retract hok, h.entries, Dict.mapValues_erase]
  · have hentry : ix.documents.find? id = (c.find? id).map (Corpus.entry a) := by
      rw [h.entries, Dict.find?_mapValues]
    rcases hfind : c.find? id with _ | fields
    · rw [hfind] at hentry
      rw [retract_of_none hentry] at hok
      rw [← Except.ok.inj hok, h.tokens, Dict.erase_of_notMem (Dict.find?_eq_none_iff.1 hfind)]
    · rw [hfind] at hentry
      obtain ⟨terms, rfl⟩ := exists_terms_of_retract hentry hok
      show ix.tokens - _ = _
      rw [h.tokens, Corpus.tokenTotal_eq_add hfind, Corpus.toUInt64_length_entry,
        toUInt64_add, UInt64.add_sub_cancel]

/-- **The tokens of a document that is put in are added**, and those of the one that it replaces are
not counted any more. -/
theorem exists_replace (d : Document) :
    ∃ ix', ix.replace ⟨d.id, Corpus.fieldTokens a d.fields⟩ = .ok ix' ∧
      ix'.Tallies a (c.insert d.id d.fields) := by
  obtain ⟨ix', hok, hreflects⟩ := h.toReflects.exists_replace d
  refine ⟨ix', hok, hreflects, ?_, ?_⟩
  · rw [(documents_of_replace hok).2, h.entries, Corpus.entry_eq, Dict.mapValues_insert]
  · obtain ⟨left, hleft, hrecord⟩ := Passes.bind_eq_ok_iff.1 hok
    obtain ⟨left', hleft', htallies⟩ := h.exists_retract d.id
    obtain rfl : left' = left := Except.ok.inj (hleft'.symm.trans hleft)
    rw [← Except.ok.inj hrecord]
    show left'.tokens + _ = _
    rw [htallies.tokens, Corpus.entry_eq, Corpus.toUInt64_length_entry, ← toUInt64_add,
      Corpus.tokenTotal_insert]

end Index.Tallies

namespace Index

/-- **Every change keeps the numbers of an index right.** -/
theorem isFollowed_tallies (a : Analyzer) : IsFollowed a (fun _ ↦ True) (Tallies · a ·) where
  empty version := ⟨(isFollowed_reflects a).empty version, rfl, rfl⟩
  publish _ _ h := ⟨h.toReflects.publish, h.entries, h.tokens⟩
  replace _ _ h d _ := h.exists_replace d
  retract _ _ h := h.exists_retract

/-- At the end of any history the numbers of the index are right. -/
theorem tallies_atEnd (a : Analyzer) (history : List Move) :
    (atEnd a history).Tallies a (Corpus.atEnd history) :=
  (isFollowed_tallies a).atEnd fun _ _ _ _ ↦ trivial

end Index

end Concordance
