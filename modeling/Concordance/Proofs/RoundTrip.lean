import Concordance.Proofs.Reads
import Concordance.Proofs.Soundness
import Mathlib.Algebra.Order.BigOperators.Group.List
import Mathlib.Algebra.Order.Group.Nat

/-!
# An archive gives its index back

The parts of an archive nest five deep: terms, postings, fields and positions, and documents beside
them. If the numbers in an index can be stored (`Index.Storable`), each part is read back from its
bytes unless one of its strings is too long, and then the archive is refused for that (`ReadsIf`).
So the whole archive is read if all strings fit (`decode_encode_append`), and bytes after it do no
harm.

The reader rejects some archives on the way. A field with more positions than the frequency of its
posting does not occur in an index that passes the check, because the frequency counts the positions
of all fields and the count does not wrap around.
-/

namespace Concordance

/-- A string that is not too long for an archive. -/
def Bytes.Fits (s : Bytes) : Prop :=
  s.length ≤ Archive.maxStringLength.toNat

instance (s : Bytes) : Decidable s.Fits :=
  inferInstanceAs (Decidable (_ ≤ _))

/-- An entry whose field names and numbers of fields and terms fit into an archive. -/
structure DocumentEntry.Fits (d : DocumentEntry) : Prop where
  fields : d.fieldLengths.size < 2 ^ 32
  names : ∀ field ∈ d.fieldLengths.keys, field.Fits
  terms : d.terms.length < 2 ^ 32

/-- A posting whose field names and numbers of fields and positions fit into an archive. -/
structure Posting.Fits (p : Posting) : Prop where
  fields : p.fields.length < 2 ^ 32
  names : ∀ h ∈ p.fields, h.field.Fits
  positions : (p.fields.map fun h ↦ h.positions.length).sum < 2 ^ 32

/-- **An index that an archive can hold**: it passes the check, it has as many tokens as its
documents together, and its strings and numbers of items fit. -/
structure Index.Fits (ix : Index) : Prop where
  check : ix.check = .ok ()
  tokens : ix.tokens =
    ((ix.documents.values.map fun d : DocumentEntry ↦ d.length.toNat).sum).toUInt64
  documents : ix.documents.size < 2 ^ 32
  ids : ∀ id ∈ ix.documents.keys, id.Fits
  entries : ∀ d ∈ ix.documents.values, d.Fits
  terms : ix.terms.size < 2 ^ 32
  names : ∀ term ∈ ix.terms.keys, term.Fits
  postings : ∀ ps ∈ ix.terms.values, ps.length < 2 ^ 32 ∧ ∀ p ∈ ps, p.Fits

/-! ### Numbers and strings apart -/

/-- A string whose length can be written as a number of four bytes. -/
def Bytes.CanBeMeasured (s : Bytes) : Prop :=
  s.length < 2 ^ 32

instance (s : Bytes) : Decidable s.CanBeMeasured :=
  inferInstanceAs (Decidable (_ < _))

theorem Bytes.Fits.canBeMeasured {s : Bytes} (h : s.Fits) : s.CanBeMeasured :=
  Nat.lt_of_le_of_lt h (by decide)

/-- The tokens of all documents together, as a number of 64 bits. -/
def tokenCount (documents : Dict DocumentEntry) : UInt64 :=
  ((documents.values.map fun d : DocumentEntry ↦ d.length.toNat).sum).toUInt64

/-- They are those of one document and those of the others. -/
theorem tokenCount_eq_add {documents : Dict DocumentEntry} {id : Bytes} {d : DocumentEntry}
    (hfind : documents.find? id = some d) :
    tokenCount documents = d.length.toUInt64 + tokenCount (documents.erase id) := by
  have hvalues : documents.values.Perm (d :: (documents.erase id).values) :=
    (Dict.entries_perm hfind).map Prod.snd
  have hlength : d.length.toNat.toUInt64 = d.length.toUInt64 := UInt64.ofNat_uInt32ToNat _
  rw [tokenCount, (hvalues.map fun d : DocumentEntry ↦ d.length.toNat).sum_nat, List.map_cons,
    List.sum_cons, toUInt64_add, hlength, tokenCount]

/-- A new document adds its tokens. -/
theorem tokenCount_insert {documents : Dict DocumentEntry} {id : Bytes} (hnew : id ∉ documents.keys)
    (d : DocumentEntry) :
    tokenCount (documents.insert id d) = tokenCount documents + d.length.toUInt64 := by
  have hfind : (documents.insert id d).find? id = some d := by rw [Dict.find?_insert, if_pos rfl]
  rw [tokenCount_eq_add hfind, Dict.erase_insert_of_notMem hnew, UInt64.add_comm]

/-- An index all of whose numbers of items can be written with four bytes. -/
structure Index.IsCountable (ix : Index) : Prop where
  documents : ix.documents.size < 2 ^ 32
  fields : ∀ d ∈ ix.documents.values, d.fieldLengths.size < 2 ^ 32
  listed : ∀ d ∈ ix.documents.values, d.terms.length < 2 ^ 32
  terms : ix.terms.size < 2 ^ 32
  postings : ∀ ps ∈ ix.terms.values, ps.length < 2 ^ 32
  hits : ∀ ps ∈ ix.terms.values, ∀ p ∈ ps, p.fields.length < 2 ^ 32
  positions : ∀ ps ∈ ix.terms.values, ∀ p ∈ ps,
    (p.fields.map fun h ↦ h.positions.length).sum < 2 ^ 32

/-- An entry whose numbers of fields and terms can be stored. -/
structure DocumentEntry.Storable (d : DocumentEntry) : Prop where
  fields : d.fieldLengths.size < 2 ^ 32
  terms : d.terms.length < 2 ^ 32

/-- A posting whose numbers of fields and positions can be stored. -/
structure Posting.Storable (p : Posting) : Prop where
  fields : p.fields.length < 2 ^ 32
  positions : ∀ h ∈ p.fields, h.positions.length ≤ p.frequency.toNat

/-- **An index whose numbers an archive can hold.** Of its strings nothing is said. -/
structure Index.Storable (ix : Index) : Prop where
  sound : ix.IsSound
  tokens : ix.tokens = tokenCount ix.documents
  documents : ix.documents.size < 2 ^ 32
  entries : ∀ d ∈ ix.documents.values, d.Storable
  terms : ix.terms.size < 2 ^ 32
  postings : ∀ ps ∈ ix.terms.values, ps.length < 2 ^ 32 ∧ ∀ p ∈ ps, p.Storable

/-- The frequency of a posting counts the positions of all fields, and where it does not wrap around
no field has more. -/
theorem Index.IsSound.storable {ix : Index} (h : ix.IsSound)
    (htokens : ix.tokens = tokenCount ix.documents) (hcounts : ix.IsCountable) : ix.Storable where
  sound := h
  tokens := htokens
  documents := hcounts.documents
  entries d hd := ⟨hcounts.fields d hd, hcounts.listed d hd⟩
  terms := hcounts.terms
  postings ps hps := by
    refine ⟨hcounts.postings ps hps, fun p hp ↦ ⟨hcounts.hits ps hps p hp, fun f hf ↦ ?_⟩⟩
    have hsum := hcounts.positions ps hps p hp
    obtain ⟨e, he, rfl⟩ := List.mem_map.1 hps
    have hcount : p.frequency.toNat = (p.fields.map fun h ↦ h.positions.length).sum := by
      rw [← (h.postings e he p hp).frequency, hitCount, total_map_toUInt32,
        toNat_toUInt32_of_lt hsum]
    rw [hcount]
    exact List.le_sum_of_mem (List.mem_map_of_mem hf)

/-- All strings of an entry have a property. -/
def DocumentEntry.AllStrings (P : Bytes → Prop) (d : DocumentEntry) : Prop :=
  (∀ e ∈ d.fieldLengths.entries, P e.1) ∧ ∀ term ∈ d.terms, P term

/-- All strings of a posting have a property. -/
def Posting.AllStrings (P : Bytes → Prop) (p : Posting) : Prop :=
  P p.doc ∧ ∀ h ∈ p.fields, P h.field

/-- **All strings of an index have a property**: identifiers, names of fields and terms. -/
def Index.AllStrings (P : Bytes → Prop) (ix : Index) : Prop :=
  (∀ e ∈ ix.documents.entries, P e.1 ∧ e.2.AllStrings P) ∧
    ∀ e ∈ ix.terms.entries, P e.1 ∧ ∀ p ∈ e.2, p.AllStrings P

theorem Index.AllStrings.imp {P Q : Bytes → Prop} {ix : Index} (h : ix.AllStrings P)
    (hPQ : ∀ s, P s → Q s) : ix.AllStrings Q := by
  refine ⟨fun e he ↦ ?_, fun e he ↦ ?_⟩
  · obtain ⟨hid, hfields, hterms⟩ := h.1 e he
    exact ⟨hPQ _ hid, fun f hf ↦ hPQ _ (hfields f hf), fun t ht ↦ hPQ _ (hterms t ht)⟩
  · obtain ⟨hterm, hpostings⟩ := h.2 e he
    refine ⟨hPQ _ hterm, fun p hp ↦ ?_⟩
    obtain ⟨hdoc, hfields⟩ := hpostings p hp
    exact ⟨hPQ _ hdoc, fun f hf ↦ hPQ _ (hfields f hf)⟩

namespace Index.Fits

variable {ix : Index} (h : ix.Fits)

include h

/-- Its items can be counted with four bytes. -/
theorem isCountable : ix.IsCountable where
  documents := h.documents
  fields d hd := (h.entries d hd).fields
  listed d hd := (h.entries d hd).terms
  terms := h.terms
  postings ps hps := (h.postings ps hps).1
  hits ps hps p hp := ((h.postings ps hps).2 p hp).fields
  positions ps hps p hp := ((h.postings ps hps).2 p hp).positions

/-- An index that fits can be stored. -/
theorem storable : ix.Storable :=
  (Index.check_eq_ok_iff.1 h.check).storable h.tokens h.isCountable

/-- None of its strings is too long. -/
theorem allStrings : ix.AllStrings Bytes.Fits := by
  have hsound : ix.IsSound := Index.check_eq_ok_iff.1 h.check
  refine ⟨fun e he ↦ ⟨h.ids _ (List.mem_map_of_mem he), fun f hf ↦ ?_, fun term hterm ↦ ?_⟩,
    fun e he ↦ ⟨h.names _ (List.mem_map_of_mem he), fun p hp ↦ ⟨?_, ?_⟩⟩⟩
  · exact (h.entries _ (List.mem_map_of_mem he)).names _ (List.mem_map_of_mem hf)
  · exact h.names _ (Dict.contains_iff.1 (hsound.listed e he term hterm))
  · exact h.ids _ (Dict.contains_iff.1 (hsound.postings e he p hp).known)
  · exact ((h.postings _ (List.mem_map_of_mem he)).2 p hp).names

end Index.Fits

namespace Archive

variable {ix : Index}

/-- The documents read so far, with the number of their tokens. -/
def documentsOf (entries : List (Bytes × DocumentEntry)) : Dict DocumentEntry × UInt64 :=
  (.ofList entries, ((entries.map fun e : Bytes × DocumentEntry ↦ e.2.length.toNat).sum).toUInt64)

theorem documentsOf_concat (entries : List (Bytes × DocumentEntry)) (e : Bytes × DocumentEntry) :
    documentsOf (entries ++ [e]) =
      ((documentsOf entries).1.insert e.1 e.2,
        (documentsOf entries).2 + e.2.length.toUInt64) := by
  have hlength : e.2.length.toNat.toUInt64 = e.2.length.toUInt64 := UInt64.ofNat_uInt32ToNat _
  rw [documentsOf, documentsOf, Dict.ofList_concat, List.map_append, List.sum_append, toUInt64_add]
  simp only [List.map_cons, List.map_nil, List.sum_cons, List.sum_nil, Nat.add_zero, hlength]

/-! ### The header -/

theorem Reads.header (h : Header) : Reads Reader.header h.encode h := by
  rw [Header.encode]
  simp only [List.append_assoc]
  refine (word h.magic).bind <| (halfWord h.major).bind <| (halfWord h.minor).bind <|
    (word h.flags).bind <| (word h.documents).bind <| (word h.terms).bind <|
    (word h.reserved).bind <| (longWord h.tokens).bind ?_
  exact (longWord h.version).bind_pure fun version ↦ { h with version }

namespace ReadsIf

/-! ### Documents -/

theorem fieldLength {e : Bytes × UInt32} (h : e.1.CanBeMeasured) :
    ReadsIf e.1.Fits Reader.fieldLength (Archive.fieldLength e) e :=
  (string h).bind_reads ((Reads.word e.2).bind_pure fun length ↦ (e.1, length))

/-- What the bytes of a document have after its identifier. -/
theorem documentEntry {d : DocumentEntry} (h : d.Storable)
    (hstrings : d.AllStrings Bytes.CanBeMeasured) :
    ReadsIf (d.AllStrings Bytes.Fits) Reader.documentEntry
      (Archive.list Archive.fieldLength d.fieldLengths.entries ++
        Archive.list Archive.string d.terms) d := by
  have hread : ReadsIf (d.AllStrings Bytes.Fits) Reader.documentEntry
      (Archive.list Archive.fieldLength d.fieldLengths.entries ++
        Archive.list Archive.string d.terms) ⟨.ofList d.fieldLengths.entries, d.terms⟩ := by
    refine (list h.fields fun e he ↦ fieldLength (hstrings.1 e he)).bind fun _ ↦ ?_
    exact (list h.terms fun term hterm ↦ string (hstrings.2 term hterm)).bind_pure _
  rwa [Dict.ofList_entries] at hread

/-- A document that has not been read before. -/
theorem document {e : Bytes × DocumentEntry} {acc : Dict DocumentEntry × UInt64}
    (hid : e.1.CanBeMeasured) (h : e.2.Storable) (hstrings : e.2.AllStrings Bytes.CanBeMeasured)
    (hnew : acc.1.contains e.1 = false) :
    ReadsIf (e.1.Fits ∧ e.2.AllStrings Bytes.Fits) (Reader.document acc) (Archive.document e)
      (acc.1.insert e.1 e.2, acc.2 + e.2.length.toUInt64) := by
  rw [Archive.document, List.append_assoc]
  refine (string hid).bind fun _ ↦ ?_
  rw [← List.append_nil (Archive.list _ _ ++ _)]
  refine (documentEntry h hstrings).bind_reads (.of_not ?_ (.pure _))
  rw [hnew]
  exact Bool.false_ne_true

variable (h : ix.Storable) (hstrings : ix.AllStrings Bytes.CanBeMeasured)

include h hstrings

/-- All documents are read back, and the number of their tokens with them. -/
theorem documents :
    ReadsIf (∀ e ∈ ix.documents.entries, e.1.Fits ∧ e.2.AllStrings Bytes.Fits)
      (Reader.collect Reader.document ix.documents.size (∅, 0))
      (ix.documents.entries.flatMap Archive.document) (ix.documents, ix.tokens) := by
  have hlast : (ix.documents, ix.tokens) = documentsOf ix.documents.entries := by
    rw [documentsOf, Dict.ofList_entries, h.tokens, tokenCount, Dict.values, List.map_map]
    rfl
  rw [hlast]
  refine collect documentsOf fun before e after heq ↦ ?_
  have he : e ∈ ix.documents.entries := heq ▸ List.mem_append_right _ List.mem_cons_self
  rw [documentsOf_concat]
  exact document (hstrings.1 e he).1 (h.entries _ (List.mem_map_of_mem he)) (hstrings.1 e he).2
    (Dict.contains_ofList_before heq)

/-! ### Terms -/

omit h hstrings in
/-- The hits of a posting in a field, of which there are no more than its frequency says. -/
theorem fieldHits {h : FieldHits} {frequency : UInt32} (hname : h.field.CanBeMeasured)
    (hcount : h.positions.length ≤ frequency.toNat) :
    ReadsIf h.field.Fits (Reader.fieldHits frequency) (Archive.fieldHits h) h := by
  have hsmall : h.positions.length < 2 ^ 32 := Nat.lt_of_le_of_lt hcount frequency.toNat_lt
  have hn : h.positions.length.toUInt32.toNat = h.positions.length := toNat_toUInt32_of_lt hsmall
  refine (string hname).bind_reads ((Reads.word _).bind (.of_not ?_ ?_))
  · rw [UInt32.lt_iff_toNat_lt, hn]
    exact Nat.not_lt.2 hcount
  · rw [hn]
    exact (Reads.times fun n _ ↦ .word n).bind_pure fun positions ↦ FieldHits.mk h.field positions

omit h hstrings in
theorem posting {p : Posting} (h : p.Storable) (hstrings : p.AllStrings Bytes.CanBeMeasured) :
    ReadsIf (p.AllStrings Bytes.Fits) Reader.posting (Archive.posting p) p := by
  rw [Archive.posting, List.append_assoc]
  refine (string hstrings.1).bind fun _ ↦ .after (.word p.frequency) ?_
  exact (list h.fields fun f hf ↦ fieldHits (hstrings.2 f hf) (h.positions f hf)).bind_pure
    fun fields ↦ Posting.mk p.doc fields p.frequency

omit h hstrings in
/-- A term that has not been read before. -/
theorem term {e : Bytes × Postings} {acc : Dict Postings} (hname : e.1.CanBeMeasured)
    (hsize : e.2.length < 2 ^ 32) (h : ∀ p ∈ e.2, p.Storable)
    (hstrings : ∀ p ∈ e.2, p.AllStrings Bytes.CanBeMeasured) (hnew : acc.contains e.1 = false) :
    ReadsIf (e.1.Fits ∧ ∀ p ∈ e.2, p.AllStrings Bytes.Fits) (Reader.term acc) (Archive.term e)
      (acc.insert e.1 e.2) := by
  refine (string hname).bind fun _ ↦ ?_
  rw [← List.append_nil (Archive.list _ _)]
  refine (list hsize fun p hp ↦ posting (h p hp) (hstrings p hp)).bind_reads (.of_not ?_ (.pure _))
  rw [hnew]
  exact Bool.false_ne_true

/-- All terms are read back. -/
theorem terms :
    ReadsIf (∀ e ∈ ix.terms.entries, e.1.Fits ∧ ∀ p ∈ e.2, p.AllStrings Bytes.Fits)
      (Reader.collect Reader.term ix.terms.size ∅) (ix.terms.entries.flatMap Archive.term)
      ix.terms := by
  have hread : ReadsIf (∀ e ∈ ix.terms.entries, e.1.Fits ∧ ∀ p ∈ e.2, p.AllStrings Bytes.Fits)
      (Reader.collect Reader.term ix.terms.entries.length (Dict.ofList []))
      (ix.terms.entries.flatMap Archive.term) (Dict.ofList ix.terms.entries) := by
    refine collect Dict.ofList fun before e after heq ↦ ?_
    have he : e ∈ ix.terms.entries := heq ▸ List.mem_append_right _ List.mem_cons_self
    obtain ⟨hsize, hstorable⟩ := h.postings e.2 (List.mem_map_of_mem he)
    rw [Dict.ofList_concat]
    exact term (hstrings.2 e he).1 hsize hstorable (hstrings.2 e he).2
      (Dict.contains_ofList_before heq)
  rwa [Dict.ofList_entries] at hread

/-! ### The whole archive -/

/-- **An archive is read if all strings in it fit**, and otherwise refused because one does not. -/
theorem archive : ReadsIf (ix.AllStrings Bytes.Fits) Reader.archive (encode ix)
    (Archive.header ix, ix) := by
  have hdocuments : (Archive.header ix).documents.toNat = ix.documents.size :=
    toNat_toUInt32_of_lt h.documents
  have hterms : (Archive.header ix).terms.toNat = ix.terms.size := toNat_toUInt32_of_lt h.terms
  rw [encode, List.append_assoc]
  refine .after (.header _) (of_not (not_not.2 rfl) (of_not (not_not.2 rfl) ?_))
  rw [hdocuments]
  refine (documents h hstrings).bind fun _ ↦ of_not (not_not.2 rfl) ?_
  rw [hterms, ← List.append_nil (ix.terms.entries.flatMap _)]
  refine (terms h hstrings).bind_reads ?_
  have hcheck : Index.check
      ⟨ix.terms, ix.documents, (Archive.header ix).tokens, (Archive.header ix).version⟩ = .ok () :=
    Index.check_eq_ok_iff.2 h.sound
  simp only [hcheck]
  exact .pure _

end ReadsIf

/-- So an index that can be stored is read back if no string is too long. -/
theorem reads_archive (h : ix.Storable) (hstrings : ix.AllStrings Bytes.Fits) :
    Reads Reader.archive (encode ix) (Archive.header ix, ix) :=
  (ReadsIf.archive h (hstrings.imp fun _ ↦ Bytes.Fits.canBeMeasured)).reads hstrings

theorem Reads.archive (h : ix.Fits) : Reads Reader.archive (encode ix) (Archive.header ix, ix) :=
  reads_archive h.storable h.allStrings

/-- What is read as an archive is decoded, without any bytes after it. -/
theorem decode_of_reads {s : Bytes} {found : Header × Index} (h : Reads Reader.archive s found) :
    decode s = .ok found := by
  rw [decode, ← List.append_nil s, h []]
  rfl

/-- **An archive gives back its header and its index**, whatever bytes come after it. -/
theorem decode_encode_append (h : ix.Fits) (z : Bytes) :
    decode (encode ix ++ z) = .ok (header ix, ix) := by
  rw [decode, Reads.archive h z]
  rfl

/-- An index with one term, in two fields of one document, and bytes that come after its archive. -/
theorem decode_encode_append_two_fields :
    let hits : List FieldHits := [⟨utf8 "body", [1]⟩, ⟨utf8 "title", [0, 2]⟩]
    let d : DocumentEntry := ⟨.ofList [(utf8 "body", 2), (utf8 "title", 3)], [utf8 "hat"]⟩
    let ix : Index := ⟨.ofList [(utf8 "hat", [⟨utf8 "1", hits, 3⟩])], .ofList [(utf8 "1", d)], 5, 7⟩
    ix.Fits ∧ decode (encode ix ++ utf8 "more") = .ok (header ix, ix) := by
  intro hits d ix
  have hd : d.Fits := ⟨by decide, by decide, by decide⟩
  have hp : Posting.Fits ⟨utf8 "1", hits, 3⟩ := ⟨by decide, by decide, by decide⟩
  have hix : ix.Fits := ⟨by rfl, by decide, by decide, by decide, List.forall_mem_singleton.2 hd,
    by decide, by decide, List.forall_mem_singleton.2 ⟨by decide, List.forall_mem_singleton.2 hp⟩⟩
  exact ⟨hix, decode_encode_append hix _⟩

end Archive

end Concordance
