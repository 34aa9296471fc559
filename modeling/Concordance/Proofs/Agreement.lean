import Concordance.Proofs.AcceptedFiles
import Concordance.Proofs.Updates
import Concordance.Text.Table

/-!
# Changing an index that comes from a file

A document is taken out of the postings of the terms that it lists. So an index can be changed
safely only if its documents and its postings agree: a document lists its terms once, and they are
the ones that have a posting of it (`Index.Agrees`). The check made on loading leaves this out. It
is all that is missing: adding and removing documents keeps an index sound and in agreement
(`IsWhole.exists_change`), and an index that has been read can be changed safely exactly if it is in
agreement when it is read (`updatesSafely_iff_agrees`).

No corpus has to be known for this. The documents of a file need not be of any texts.
-/

namespace Concordance

/-- A document the words of whose texts can be counted with 32 bits. -/
def Document.CanBeCounted (a : Analyzer) (d : Document) : Prop :=
  ∀ text ∈ d.fields.values, (a.orthography.words text).length ≤ 2 ^ 32

instance (a : Analyzer) (d : Document) : Decidable (d.CanBeCounted a) :=
  inferInstanceAs (Decidable (∀ text ∈ d.fields.values, (a.orthography.words text).length ≤ 2 ^ 32))

/-- A change that adds documents that pass for well-formed, or removes one. -/
def Change.IsUpdate (a : Analyzer) : Change → Prop
  | add batch => ∀ d ∈ batch, d.CanBeAdded ∧ d.CanBeCounted a
  | remove _ => True
  | clear => False
  | restore _ => False

namespace Index

/-- An index that is sound and in agreement. -/
structure IsWhole (ix : Index) : Prop where
  sound : ix.IsSound
  agrees : ix.Agrees

/-- Whatever documents are added to an index and removed from it, the changes succeed, the index
passes the check after them, and any document can then be removed and leaves no posting. -/
def UpdatesSafely (a : Analyzer) (ix : Index) : Prop :=
  ∀ changes : List Change, (∀ c ∈ changes, c.IsUpdate a) →
    ∃ ix', changes.foldlM (fun ix c ↦ ix.change a c) ix = .ok ix' ∧ ix'.check = .ok () ∧
      ∀ id, ∃ ix'', ix'.change a (.remove id) = .ok ix'' ∧
        ∀ term, ∀ p ∈ ix''.postings term, p.doc ≠ id

variable {ix : Index} {a : Analyzer} {id : Bytes} {fields : Dict Bytes}

/-! ### Tidy and sound -/

/-- A sound index keeps no term without postings. -/
theorem IsSound.keeps (h : ix.IsSound) : Keeps ix.terms ix.postings := by
  intro term
  rw [Index.postings]
  rcases hfind : ix.terms.find? term with _ | ps
  · rfl
  · have hne : ps ≠ [] := h.nonempty _ (Dict.find?_eq_some_iff.1 hfind)
    exact (if_neg hne).symm

/-- **A sound index in agreement is tidy**, which is all that an update needs. -/
theorem IsSound.isTidy (h : ix.IsSound) (hagrees : ix.Agrees) : ix.IsTidy :=
  { h.inOrder with keeps := h.keeps, agrees := hagrees }

/-- The rest of it is about each posting alone. -/
theorem IsTidy.isSound (h : ix.IsTidy) (hp : ∀ term, ∀ p ∈ ix.postings term, p.IsSound ix) :
    ix.IsSound := by
  have hentry : ∀ e ∈ ix.terms.entries, ix.postings e.1 ≠ [] ∧ e.2 = ix.postings e.1 := by
    intro e he
    have hfind := h.keeps e.1
    rw [Dict.find?_eq_some_iff.2 he] at hfind
    split at hfind
    · cases hfind
    · rename_i hne
      exact ⟨hne, Option.some.inj hfind⟩
  refine ⟨fun e he ↦ ?_, fun e he ↦ ?_, fun e he ↦ ?_, fun e he term hterm ↦ ?_⟩
  · rw [(hentry e he).2]
    exact (hentry e he).1
  · rw [(hentry e he).2]
    exact h.ordered e.1
  · rw [(hentry e he).2]
    exact hp e.1
  · obtain ⟨p, hp, -⟩ := (h.agrees.listed e.1 e.2 (Dict.find?_eq_some_iff.2 he) term).1 hterm
    rw [hasTerm, Dict.contains, h.keeps, if_neg (List.ne_nil_of_mem hp)]
    rfl

/-- A posting is sound in any index that has its document. -/
theorem isSound_of_known {ix' : Index} {p : Posting} (h : p.IsSound ix)
    (hknown : ix'.hasDocument p.doc = true) : p.IsSound ix' :=
  { h with known := hknown }

theorem IsWhole.isTidy (h : ix.IsWhole) : ix.IsTidy :=
  h.sound.isTidy h.agrees

theorem IsTidy.isWhole (h : ix.IsTidy) (hp : ∀ term, ∀ p ∈ ix.postings term, p.IsSound ix) :
    ix.IsWhole :=
  ⟨h.isSound hp, h.agrees⟩

theorem IsWhole.isSound_of_mem_postings (h : ix.IsWhole) (term : Bytes) :
    ∀ p ∈ ix.postings term, p.IsSound ix :=
  fun _ ↦ h.sound.isSound_of_mem_postings

/-! ### Changes -/

/-- The posting of a document that can be counted is sound. -/
theorem isSound_posting (hknown : ix.hasDocument id = true)
    (hwords : ∀ text ∈ fields.values, (a.orthography.words text).length ≤ 2 ^ 32) {term : Bytes}
    (hterm : term ∈ (Corpus.terms a fields).toList) :
    (AnalyzedDocument.posting ⟨id, Corpus.fieldTokens a fields⟩ term).IsSound ix := by
  rw [Corpus.posting_eq]
  refine ⟨hknown, Corpus.hits_ne_nil_iff.2 hterm, Corpus.hits_ascending a term fields,
    fun h hh ↦ ?_, ?_⟩
  · obtain ⟨text, hfind, hpositions, hne⟩ := Corpus.mem_hits.1 hh
    refine ⟨hne, ?_⟩
    rw [hpositions]
    exact Corpus.positions_ascending a term text h.field
      (hwords text (Dict.mem_values_iff.2 ⟨h.field, hfind⟩))
  · rw [hitCount, total_map_toUInt32]
    rfl

/-- **Putting in documents that can be counted keeps all postings sound**, and so does taking out
any. -/
theorem isKept_isSound (a : Analyzer) : IsKept a (·.CanBeCounted a) (fun _ ↦ True)
    fun ix ↦ ∀ term, ∀ p ∈ ix.postings term, p.IsSound ix where
  publish ix hp term p hmem := isSound_of_known (hp term p hmem) (hp term p hmem).known
  retract ix ix' id _ htidy hp hok term p hmem := by
    obtain ⟨_, hok', htidy', hpostings⟩ := htidy.exists_retract id
    obtain rfl := Except.ok.inj (hok'.symm.trans hok)
    have hknown := htidy'.known term p hmem
    rw [hpostings, List.mem_filter] at hmem
    exact isSound_of_known (hp term p hmem.1) hknown
  record ix d hd htidy hp hnew term p hmem := by
    have hknown := (htidy.record _ hnew).known term p hmem
    rcases (htidy.mem_postings_record _).1 hmem with ⟨hterm, rfl⟩ | hold
    · exact isSound_posting hknown hd hterm
    · exact isSound_of_known (hp term p hold) hknown
  free _ _ := trivial

/-- **A batch of documents can be added.** -/
theorem IsWhole.exists_add (h : ix.IsWhole) {batch : List Document}
    (hbatch : ∀ d ∈ batch, d.CanBeAdded ∧ d.CanBeCounted a) :
    ∃ ix', ix.add a batch = .ok ix' ∧ ix'.IsWhole := by
  obtain ⟨ix', hok, htidy, hp⟩ := h.isTidy.exists_add (isKept_isSound a) h.isSound_of_mem_postings
    (fun d hd ↦ (hbatch d hd).1) fun d hd ↦ (hbatch d hd).2
  exact ⟨ix', hok, htidy.isWhole hp⟩

/-- **A document can be removed**, and no posting of it is left. -/
theorem IsWhole.exists_remove (h : ix.IsWhole) (id : Bytes) :
    ∃ ix', ix.change a (.remove id) = .ok ix' ∧ ix'.IsWhole ∧
      ∀ term, ∀ p ∈ ix'.postings term, p.doc ≠ id := by
  obtain ⟨ix', hok, htidy, hp, hpostings⟩ := h.isTidy.exists_remove (isKept_isSound a)
    h.isSound_of_mem_postings id trivial
  refine ⟨ix', hok, htidy.isWhole hp, fun term p hmem ↦ ?_⟩
  rw [hpostings, List.mem_filter] at hmem
  exact of_decide_eq_true hmem.2

/-- **An update keeps an index whole.** -/
theorem IsWhole.exists_change (h : ix.IsWhole) {c : Change} (hc : c.IsUpdate a) :
    ∃ ix', ix.change a c = .ok ix' ∧ ix'.IsWhole := by
  cases c with
  | add batch => exact h.exists_add hc
  | remove id =>
    obtain ⟨ix', hok, hwhole, -⟩ := h.exists_remove (a := a) id
    exact ⟨ix', hok, hwhole⟩
  | clear => exact hc.elim
  | restore index => exact hc.elim

/-- So do all updates, one after another, and they are safe. -/
theorem IsWhole.updatesSafely (h : ix.IsWhole) : ix.UpdatesSafely a := by
  intro changes hchanges
  obtain ⟨ix', hfold, hwhole⟩ : ∃ ix', changes.foldlM (fun ix c ↦ ix.change a c) ix = .ok ix' ∧
      ix'.IsWhole := by
    refine Passes.exists_foldlM (fun _ ix ↦ IsWhole ix) (fun before c after ix heq hix ↦ ?_) h
    have hc : c ∈ changes := heq ▸ List.mem_append_right _ List.mem_cons_self
    exact hix.exists_change (hchanges c hc)
  refine ⟨ix', hfold, check_eq_ok_iff.2 hwhole.sound, fun id ↦ ?_⟩
  obtain ⟨ix'', hok, -, hgone⟩ := hwhole.exists_remove (a := a) id
  exact ⟨ix'', hok, hgone⟩

/-! ### Nothing less will do -/

/-- A document that can be removed so that no posting of it is left lists its terms once, and they
are the ones that have a posting of it. -/
theorem IsSound.listed_of_remove (h : ix.IsSound) {d : DocumentEntry}
    (hfind : ix.documents.find? id = some d) {ix' : Index}
    (hok : ix.change a (.remove id) = .ok ix')
    (hgone : ∀ term, ∀ p ∈ ix'.postings term, p.doc ≠ id) :
    d.terms.Nodup ∧ ∀ term, term ∈ d.terms ↔ ∃ p ∈ ix.postings term, p.doc = id := by
  rw [change_remove a (hasDocument_iff.2 ⟨d, hfind⟩), retract_of_some hfind] at hok
  rcases hfold : d.terms.foldlM (retractTerm id) ix.terms with e | terms
  · rw [hfold] at hok
    cases hok
  · obtain ⟨hnodup, hlisted⟩ := listed_of_foldlM_retractTerm h.postings_ascending h.keeps hfold
    refine ⟨hnodup, fun term ↦ ⟨hlisted term, fun ⟨p, hp, hdoc⟩ ↦ ?_⟩⟩
    obtain ⟨terms', hfold', hkeeps⟩ :=
      exists_foldlM_retractTerm h.keeps h.postings_ascending hnodup hlisted
    obtain rfl : terms = terms' := Except.ok.inj (hfold.symm.trans hfold')
    rw [hfold] at hok
    -- the postings of a term that is not listed are all left
    by_contra hterm
    have hpostings : ix'.postings term = ix.postings term := by
      rw [← Except.ok.inj hok]
      exact (hkeeps.getD_find? term).trans (partly_of_notMem hterm)
    exact hgone term p (hpostings ▸ hp) hdoc

/-- **When an index that has been read can be changed safely.** Whatever documents that pass for
well-formed and can be counted are added, and whatever documents are removed, the changes succeed,
the check passes after them, and a document that is removed leaves no posting: this holds exactly if
documents and postings agree in the index that was read. The check that is made on reading does not
see to it. -/
theorem updatesSafely_iff_agrees {bytes : Bytes} {header : Archive.Header} {ix : Index}
    (hread : Archive.decode bytes = .ok (header, ix)) (a : Analyzer) :
    ix.UpdatesSafely a ↔ ix.Agrees := by
  have hsound := Archive.isSound_of_decode hread
  constructor
  · intro hsafe
    obtain ⟨ix', hnone, -, hremove⟩ := hsafe [] nofun
    obtain rfl : ix = ix' := Except.ok.inj hnone
    have hlisted : ∀ id d, ix.documents.find? id = some d →
        d.terms.Nodup ∧ ∀ term, term ∈ d.terms ↔ ∃ p ∈ ix.postings term, p.doc = id := by
      intro id d hfind
      obtain ⟨ix', hok, hgone⟩ := hremove id
      exact hsound.listed_of_remove hfind hok hgone
    exact ⟨fun id d hfind ↦ (hlisted id d hfind).1, fun id d hfind ↦ (hlisted id d hfind).2⟩
  · exact fun hagrees ↦ IsWhole.updatesSafely ⟨hsound, hagrees⟩

/-- A file with a document that lists a term of which only another document has a posting. -/
theorem updatesSafely_iff_agrees_missing :
    let p : Posting := ⟨utf8 "2", [⟨utf8 "title", [0]⟩], 1⟩
    let d : DocumentEntry := ⟨.ofList [(utf8 "title", 1)], [utf8 "hat"]⟩
    let ix : Index := ⟨.ofList [(utf8 "hat", [p])], .ofList [(utf8 "1", d), (utf8 "2", d)], 2, 1⟩
    Archive.decode (Archive.encode ix) = .ok (Archive.header ix, ix) ∧ ¬ ix.UpdatesSafely {} := by
  intro p d ix
  have hd : d.Fits := ⟨by decide, by decide, by decide⟩
  have hp : p.Fits := ⟨by decide, by decide, by decide⟩
  have hix : ix.Fits := ⟨by rfl, by decide, by decide, by decide,
    List.forall_mem_cons.2 ⟨hd, List.forall_mem_singleton.2 hd⟩, by decide, by decide,
    List.forall_mem_singleton.2 ⟨by decide, List.forall_mem_singleton.2 hp⟩⟩
  have hread : Archive.decode (Archive.encode ix) = .ok (Archive.header ix, ix) := by
    rw [Archive.decode, ← List.append_nil (Archive.encode ix), Archive.Reads.archive hix]
    rfl
  refine ⟨hread, fun hsafe ↦ ?_⟩
  have hagrees := (updatesSafely_iff_agrees hread {}).1 hsafe
  obtain ⟨q, hq, hdoc⟩ :=
    (hagrees.listed (utf8 "1") d rfl (utf8 "hat")).1 (List.mem_singleton_self _)
  have hq : q ∈ [p] := hq
  rw [List.mem_singleton.1 hq] at hdoc
  exact absurd hdoc (by decide)

end Index

end Concordance
