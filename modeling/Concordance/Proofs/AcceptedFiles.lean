import Concordance.Proofs.RoundTrip

/-!
# What an accepted file guarantees

A file that nobody wrote may list a field twice, have its tables in any order, have bytes after its
end and flags that mean nothing; the reader still makes an index of it. What it makes sure of on the
way is everything that an archive needs of an index: its numbers can be stored and its strings fit
(`Accepted`). So whatever was read can be written, and is then read again just the same
(`guarantees_of_decode`), though the second file need not be the first.

Each part of the reader makes sure of the corresponding part, and the two tables are collected under
an invariant that counts what they have so far.
-/

namespace Concordance.Archive

/-! ### Parts of a file -/

namespace Ensures

theorem fieldLength : Ensures Reader.fieldLength fun e ↦ e.1.Fits :=
  string.bind fun _ hname ↦ bind_of_forall fun _ ↦ .pure hname

/-- Names that occur more than once are counted once. -/
theorem documentEntry :
    Ensures Reader.documentEntry fun d ↦ d.Storable ∧ d.AllStrings Bytes.Fits := by
  refine (list fieldLength).bind fun fields hfields ↦ (list string).bind fun terms hterms ↦ .pure ?_
  have hnames : ∀ e ∈ (Dict.ofList fields).entries, e.1.Fits := by
    intro e he
    have hkey : e.1 ∈ (Dict.ofList fields).keys := List.mem_map_of_mem he
    obtain ⟨f, hf, hname⟩ := List.mem_map.1 (Dict.mem_keys_ofList.1 hkey)
    exact hname ▸ hfields.2 f hf
  exact ⟨⟨Nat.lt_of_le_of_lt (Dict.size_ofList_le fields) hfields.1, hterms.1⟩, hnames, hterms.2⟩

/-- What is read of a field has no more positions than the posting occurrences. -/
theorem fieldHits (frequency : UInt32) : Ensures (Reader.fieldHits frequency) fun h ↦
    h.field.Fits ∧ h.positions.length ≤ frequency.toNat := by
  refine string.bind fun field hfield ↦ bind_of_forall fun n ↦ refuse fun hn ↦ ?_
  refine (times (Ensures.trivial _) n.toNat).bind fun positions hpositions ↦ .pure ⟨hfield, ?_⟩
  rw [hpositions.1, ← UInt32.le_iff_toNat_le]
  exact UInt32.not_lt.1 hn

/-- So a posting that has been read can be stored. -/
theorem posting : Ensures Reader.posting fun p ↦ p.Storable ∧ p.AllStrings Bytes.Fits :=
  string.bind fun _ hdoc ↦ bind_of_forall fun frequency ↦ (list (fieldHits frequency)).bind
    fun _ hfields ↦ .pure ⟨⟨hfields.1, fun h hh ↦ (hfields.2 h hh).2⟩, hdoc,
      fun h hh ↦ (hfields.2 h hh).1⟩

end Ensures

/-! ### The tables -/

/-- The table of documents after `n` of them have been read, with the number of their tokens. -/
structure DocumentsRead (n : Nat) (acc : Dict DocumentEntry × UInt64) : Prop where
  size : acc.1.size = n
  tokens : acc.2 = tokenCount acc.1
  entries : ∀ e ∈ acc.1.entries, e.1.Fits ∧ e.2.Storable ∧ e.2.AllStrings Bytes.Fits

/-- The table of terms after `n` of them have been read. -/
structure TermsRead (n : Nat) (terms : Dict Postings) : Prop where
  size : terms.size = n
  entries : ∀ e ∈ terms.entries, e.1.Fits ∧ e.2.length < 2 ^ 32 ∧
    ∀ p ∈ e.2, p.Storable ∧ p.AllStrings Bytes.Fits

/-- One document more has been read. -/
theorem DocumentsRead.insert {n : Nat} {acc : Dict DocumentEntry × UInt64} (h : DocumentsRead n acc)
    {id : Bytes} {d : DocumentEntry} (hnew : ¬ acc.1.contains id = true) (hid : id.Fits)
    (hd : d.Storable ∧ d.AllStrings Bytes.Fits) :
    DocumentsRead (n + 1) (acc.1.insert id d, acc.2 + d.length.toUInt64) := by
  have hkey : id ∉ acc.1.keys := mt Dict.contains_iff.2 hnew
  refine ⟨(Dict.size_insert hkey).trans (congrArg (· + 1) h.size), ?_, fun e he ↦ ?_⟩
  · rw [tokenCount_insert hkey, h.tokens]
  · rcases Dict.mem_insertEntry he with rfl | he
    · exact ⟨hid, hd⟩
    · exact h.entries e he

/-- One term more has been read. -/
theorem TermsRead.insert {n : Nat} {terms : Dict Postings} (h : TermsRead n terms) {term : Bytes}
    {ps : Postings} (hnew : ¬ terms.contains term = true) (hterm : term.Fits)
    (hsize : ps.length < 2 ^ 32) (hps : ∀ p ∈ ps, p.Storable ∧ p.AllStrings Bytes.Fits) :
    TermsRead (n + 1) (terms.insert term ps) := by
  have hkey : term ∉ terms.keys := mt Dict.contains_iff.2 hnew
  refine ⟨(Dict.size_insert hkey).trans (congrArg (· + 1) h.size), fun e he ↦ ?_⟩
  rcases Dict.mem_insertEntry he with rfl | he
  · exact ⟨hterm, hsize, hps⟩
  · exact h.entries e he

namespace Ensures

theorem documents (n : Nat) :
    Ensures (Reader.collect Reader.document n (∅, 0)) (DocumentsRead n) := by
  have hstep : ∀ k acc, DocumentsRead k acc →
      Ensures (Reader.document acc) (DocumentsRead (k + 1)) := fun k acc hacc ↦
    string.bind fun _ hid ↦ documentEntry.bind fun _ hd ↦ refuse fun hnew ↦
      .pure (hacc.insert hnew hid hd)
  have hnone : DocumentsRead 0 (∅, 0) := ⟨rfl, rfl, fun _ ↦ nofun⟩
  exact collect hstep n hnone

theorem terms (n : Nat) : Ensures (Reader.collect Reader.term n ∅) (TermsRead n) := by
  have hstep : ∀ k terms, TermsRead k terms →
      Ensures (Reader.term terms) (TermsRead (k + 1)) := fun k terms hterms ↦
    string.bind fun _ hterm ↦ (list posting).bind fun _ hps ↦ refuse fun hnew ↦
      .pure (hterms.insert hnew hterm hps.1 hps.2)
  have hnone : TermsRead 0 ∅ := ⟨rfl, fun _ ↦ nofun⟩
  exact collect hstep n hnone

end Ensures

/-! ### The whole file -/

/-- A header and an index that belong together, and that can be written as they are. -/
structure Accepted (h : Header) (ix : Index) : Prop where
  storable : ix.Storable
  strings : ix.AllStrings Bytes.Fits
  documents : ix.documents.size = h.documents.toNat
  terms : ix.terms.size = h.terms.toNat
  tokens : ix.tokens = h.tokens
  version : ix.version = h.version

/-- What a table of documents and a table of terms make up, if the check passes. -/
theorem DocumentsRead.accepted {h : Header} {counted : Dict DocumentEntry × UInt64}
    {terms : Dict Postings} (hdocuments : DocumentsRead h.documents.toNat counted)
    (htokens : counted.2 = h.tokens) (hterms : TermsRead h.terms.toNat terms)
    (hcheck : Index.check ⟨terms, counted.1, h.tokens, h.version⟩ = .ok ()) :
    Accepted h ⟨terms, counted.1, h.tokens, h.version⟩ where
  storable :=
    { sound := Index.check_eq_ok_iff.1 hcheck
      tokens := htokens.symm.trans hdocuments.tokens
      documents := hdocuments.size.trans_lt h.documents.toNat_lt
      entries := fun d hd ↦ by
        obtain ⟨e, he, rfl⟩ := List.mem_map.1 hd
        exact (hdocuments.entries e he).2.1
      terms := hterms.size.trans_lt h.terms.toNat_lt
      postings := fun ps hps ↦ by
        obtain ⟨e, he, rfl⟩ := List.mem_map.1 hps
        obtain ⟨-, hsize, hall⟩ := hterms.entries e he
        exact ⟨hsize, fun p hp ↦ (hall p hp).1⟩ }
  strings :=
    ⟨fun e he ↦ ⟨(hdocuments.entries e he).1, (hdocuments.entries e he).2.2⟩,
      fun e he ↦ ⟨(hterms.entries e he).1, fun p hp ↦ ((hterms.entries e he).2.2 p hp).2⟩⟩
  documents := hdocuments.size
  terms := hterms.size
  tokens := rfl
  version := rfl

theorem Ensures.archive : Ensures Reader.archive fun x ↦ Accepted x.1 x.2 := by
  refine .bind_of_forall fun h ↦ .refuse fun _ ↦ .refuse fun _ ↦ ?_
  refine (documents h.documents.toNat).bind fun counted hdocuments ↦ .refuse fun htokens ↦ ?_
  refine (terms h.terms.toNat).bind fun terms hterms ↦ ?_
  dsimp only
  split
  · rename_i hcheck
    exact .pure (hdocuments.accepted (not_not.1 htokens) hterms hcheck)
  · exact .throw _

variable {s : Bytes} {h : Header} {ix : Index}

/-- **What is read of a file**, whatever comes after it. -/
theorem decode_eq_ok_iff :
    decode s = .ok (h, ix) ↔ ∃ z, Reader.archive.run s = .ok ((h, ix), z) := by
  rw [decode]
  rcases Reader.archive.run s with e | ⟨x, z⟩
  · constructor
    · intro hx
      cases hx
    · rintro ⟨z', hrun⟩
      cases hrun
  · constructor
    · intro hx
      exact ⟨z, by rw [← Except.ok.inj hx]⟩
    · rintro ⟨z', hrun⟩
      exact congrArg Except.ok (Prod.mk.inj (Except.ok.inj hrun)).1

/-- **Whatever is decoded is accepted.** -/
theorem accepted_of_decode (hread : decode s = .ok (h, ix)) : Accepted h ix := by
  obtain ⟨z, hrun⟩ := decode_eq_ok_iff.1 hread
  exact Ensures.archive s (h, ix) z hrun

/-- **Whatever file is accepted, the index in it is sound.** -/
theorem isSound_of_decode (hread : decode s = .ok (h, ix)) : ix.IsSound :=
  (accepted_of_decode hread).storable.sound

/-- The bytes that are written for it are read again. -/
theorem Accepted.reads (h : Accepted h ix) : Reads Reader.archive (encode ix) (header ix, ix) :=
  reads_archive h.storable h.strings

/-- **What holds of a header and an index that have been read**, whatever the file was. Numbers of
32 and of 64 bits wrap around, and what they count is said up to that. -/
structure Guarantees (h : Header) (ix : Index) : Prop where
  documents : ix.documents.size = h.documents.toNat
  terms : ix.terms.size = h.terms.toNat
  version : ix.version = h.version
  tokens : ix.tokens = h.tokens
  /-- The tokens are those of all documents together. -/
  counted : ix.tokens.toNat =
    (ix.documents.values.map fun d : DocumentEntry ↦
      (d.fieldLengths.values.map UInt32.toNat).sum % 2 ^ 32).sum % 2 ^ 64
  /-- A term has postings, in the strict order of their documents. -/
  postings : ∀ term ps, ix.terms.find? term = some ps →
    ps ≠ [] ∧ ps.Pairwise fun p q ↦ p.doc < q.doc
  /-- Their documents are there. -/
  known : ∀ term, ∀ p ∈ ix.postings term, ix.hasDocument p.doc = true
  /-- A posting has fields, in the strict order of their names. -/
  fields : ∀ term, ∀ p ∈ ix.postings term,
    p.fields ≠ [] ∧ p.fields.Pairwise fun h h' ↦ h.field < h'.field
  /-- A field has positions, which ascend. -/
  positions : ∀ term, ∀ p ∈ ix.postings term, ∀ h ∈ p.fields,
    h.positions ≠ [] ∧ h.positions.Pairwise (· < ·)
  /-- The frequency of a posting counts them. -/
  frequency : ∀ term, ∀ p ∈ ix.postings term,
    p.frequency.toNat = (p.fields.map fun h ↦ h.positions.length).sum % 2 ^ 32
  /-- The terms that a document lists are there. -/
  listed : ∀ id d, ix.documents.find? id = some d → ∀ term ∈ d.terms, ix.hasTerm term = true
  /-- What is written of the index is read again. -/
  again : decode (encode ix) = .ok (header ix, ix)

/-- The sum of words is the sum of the numbers, as a word. -/
theorem toNat_total (ns : List UInt32) : (total ns).toNat = (ns.map UInt32.toNat).sum % 2 ^ 32 := by
  have hns : ns = ns.map fun n ↦ n.toNat.toUInt32 := by
    rw [List.map_congr_left fun n _ ↦ UInt32.ofNat_toNat, List.map_id']
  conv_lhs => rw [hns]
  rw [total_map_toUInt32, Nat.toUInt32, UInt32.toNat_ofNat']

/-- **What an accepted file guarantees.** Whatever bytes are accepted as an archive, canonical or
not, the index that they hold has the documents and terms that the header counts, is sound in every
part, and is read again just the same from the bytes that are written for it. -/
theorem guarantees_of_decode (hread : decode s = .ok (h, ix)) : Guarantees h ix where
  documents := (accepted_of_decode hread).documents
  terms := (accepted_of_decode hread).terms
  version := (accepted_of_decode hread).version
  tokens := (accepted_of_decode hread).tokens
  counted := by
    rw [(accepted_of_decode hread).storable.tokens, tokenCount, Nat.toUInt64, UInt64.toNat_ofNat']
    simp only [DocumentEntry.length, toNat_total]
  postings term ps hfind := by
    have hmem := Dict.find?_eq_some_iff.1 hfind
    have hsound := isSound_of_decode hread
    exact ⟨hsound.nonempty _ hmem, hsound.ordered _ hmem⟩
  known term p hp := ((isSound_of_decode hread).isSound_of_mem_postings hp).known
  fields term p hp := by
    have hsound := (isSound_of_decode hread).isSound_of_mem_postings hp
    exact ⟨hsound.nonempty, hsound.ordered⟩
  positions term p hp := ((isSound_of_decode hread).isSound_of_mem_postings hp).positions
  frequency term p hp := by
    rw [← ((isSound_of_decode hread).isSound_of_mem_postings hp).frequency, hitCount,
      total_map_toUInt32, Nat.toUInt32, UInt32.toNat_ofNat']
  listed id d hfind := (isSound_of_decode hread).listed _ (Dict.find?_eq_some_iff.1 hfind)
  again := by
    rw [← List.append_nil (encode ix)]
    exact decode_eq_ok_iff.2 ⟨[], (accepted_of_decode hread).reads []⟩

/-- A file with a field that is listed twice, fields and documents out of order, flags, and bytes
after its end. -/
theorem guarantees_of_decode_repeated_field :
    let h : Header := ⟨magic, majorVersion, 3, 5, 2, 1, 9, 3, 7⟩
    let p : Posting := ⟨utf8 "1", [⟨utf8 "title", [0]⟩], 1⟩
    let d : DocumentEntry := ⟨.ofList [(utf8 "body", 1), (utf8 "title", 1)], [utf8 "hat"]⟩
    let d' : DocumentEntry := ⟨.ofList [(utf8 "title", 1)], []⟩
    let ix : Index := ⟨.ofList [(utf8 "hat", [p])], .ofList [(utf8 "1", d), (utf8 "2", d')], 3, 7⟩
    let bytes := h.encode ++
      (string (utf8 "2") ++ list fieldLength [(utf8 "title", 4), (utf8 "title", 1)] ++
        list string []) ++
      (string (utf8 "1") ++ list fieldLength [(utf8 "title", 1), (utf8 "body", 1)] ++
        list string [utf8 "hat"]) ++
      term (utf8 "hat", [p]) ++ utf8 "more"
    decode bytes = .ok (h, ix) ∧ Guarantees h ix := by
  intro h p d d' ix bytes
  have hread : decode bytes = .ok (h, ix) := by decide +kernel
  exact ⟨hread, guarantees_of_decode hread⟩

end Concordance.Archive
