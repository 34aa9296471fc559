import Concordance.Index.Desk
import Concordance.Proofs.Effects

/-!
# A change is made as a whole or not at all

What is done at a desk before the next version is published is not seen by anybody. It follows a
change of the index all the same: with the sheets put in, the draft is what the change makes of the
published index step by step (`Desk.Drafts`), and a job fails where the change does
(`Job.Follows`). Jobs that are done one after another follow the steps one after another, so this is
proved of the smallest jobs and carries over to the batch.

At the end the draft is published or left lying, whatever it looks like
(`Desk.change_allOrNothing_iff`). The documents are looked at before that, but of a text no more
than its length in 32 bits reaches. So an ill-formed text is refused if it has less than `2 ^ 31`
bytes, and one of `2 ^ 31` need not be.
-/

namespace Concordance

variable {a : Analyzer}

/-! ### Documents that are well-formed -/

namespace Document

/-- A document with which nothing is wrong. -/
def IsWellFormed (d : Document) : Prop :=
  d.Meets Utf8.isValid

variable {d : Document} {test test' : Bytes → Bool}

/-- What is wrong with a document depends on a test of its texts only. -/
theorem meets_congr (h : ∀ f ∈ d.fields.entries, test f.2 = test' f.2) :
    d.Meets test ↔ d.Meets test' :=
  and_congr_right fun _ ↦ and_congr_right fun _ ↦ forall₂_congr fun f hf ↦ by rw [h f hf]

/-- So does the fault that is found. -/
theorem HasFault.congr {fault : IngestFault} (hfault : d.HasFault test fault)
    (h : ∀ f ∈ d.fields.entries, test f.2 = test' f.2) : d.HasFault test' fault := by
  cases hfault with
  | emptyId hid => exact .emptyId hid
  | noFields hid hfields => exact .noFields hid hfields
  | emptyFieldName hid hname => exact .emptyFieldName hid hname
  | illFormedText hid hnames hfields hbefore htext =>
    refine .illFormedText hid hnames hfields (fun f hf ↦ ?_) ?_
    · rw [← h f (hfields ▸ List.mem_append_left _ hf)]
      exact hbefore f hf
    · exact (h _ (hfields ▸ List.mem_append_right _ List.mem_cons_self)).symm.trans htext

end Document

/-! ### Where a change of an index fails -/

namespace Index

variable {ix : Index} {id : Bytes} {e : Error}

/-- A document can fail to be retracted for a missing posting only. -/
theorem missing_of_retract (h : ix.retract id = .error e) :
    ∃ term, e = .index (.missingPosting id term) := by
  rcases hfind : ix.documents.find? id with _ | d
  · exact nomatch (retract_of_none hfind).symm.trans h
  · rw [retract_of_some hfind] at h
    rcases hfold : d.terms.foldlM (retractTerm id) ix.terms with e' | terms
    · rw [hfold] at h
      obtain rfl : e' = e := Except.error.inj h
      obtain ⟨before, term, after, terms, -, -, hterm⟩ := Passes.exists_of_foldlM_error hfold
      refine ⟨term, ?_⟩
      rw [retractTerm] at hterm
      split at hterm
      · split at hterm
        · cases hterm
        · exact (Except.error.inj hterm).symm
      · exact (Except.error.inj hterm).symm
    · rw [hfold] at h
      cases h

/-- So can one fail to be replaced. -/
theorem missing_of_replace {d : AnalyzedDocument} (h : ix.replace d = .error e) :
    ∃ term, e = .index (.missingPosting d.id term) := by
  rw [replace] at h
  rcases hretract : ix.retract d.id with e' | ix'
  · rw [hretract] at h
    obtain rfl : e' = e := Except.error.inj h
    exact missing_of_retract hretract
  · rw [hretract] at h
    cases h

/-- A batch of documents that can be added fails for a missing posting of one of them only. -/
theorem missing_of_add {batch : List Document} (hall : ∀ d ∈ batch, d.CanBeAdded)
    (h : ix.add a batch = .error e) :
    ∃ d ∈ batch, ∃ term, e = .index (.missingPosting d.id term) := by
  rw [add_eq hall] at h
  rcases hfold : (batch.map fun d ↦
      AnalyzedDocument.mk d.id (Corpus.fieldTokens a d.fields)).foldlM replace ix with e' | last
  · rw [hfold] at h
    obtain rfl : e' = e := Except.error.inj h
    obtain ⟨before, d', after, ix', heq, -, hreplace⟩ := Passes.exists_of_foldlM_error hfold
    obtain ⟨d, hd, rfl⟩ := List.mem_map.1 (heq ▸ List.mem_append_right before List.mem_cons_self)
    exact ⟨d, hd, missing_of_replace hreplace⟩
  · rw [hfold] at h
    cases h

end Index

namespace Desk

/-! ### The sheets -/

/-- Sheets put in one after another, none of them of the same term. -/
theorem find?_foldl_setPostings {l : List (Bytes × Postings)} (hl : (l.map (·.1)).Nodup)
    (terms : Dict Postings) (term : Bytes) :
    (l.foldl (fun terms e ↦ Index.setPostings terms e.1 e.2) terms).find? term =
      match Dict.lookup term l with
      | some ps => if ps = [] then none else some ps
      | none => terms.find? term := by
  induction l generalizing terms with
  | nil => rfl
  | cons e l ih =>
    obtain ⟨term', ps⟩ := e
    obtain ⟨hterm, hl⟩ := List.nodup_cons.1 hl
    rw [List.foldl_cons, ih hl, Index.find?_setPostings]
    by_cases he : term' = term
    · have hlookup : Dict.lookup term l = none :=
        Option.eq_none_iff_forall_ne_some.2 fun ps hps ↦
          hterm (List.mem_map.2 ⟨(term, ps), Dict.mem_of_lookup hps, he.symm⟩)
      simp only [Dict.lookup, he, if_true, hlookup]
    · simp only [Dict.lookup, he, if_false]

/-- The terms with the sheets put in: a sheet counts where there is one. -/
theorem find?_collected (desk : Desk) (term : Bytes) : desk.collected.find? term =
    match desk.sheets.find? term with
    | some ps => if ps = [] then none else some ps
    | none => desk.draft.terms.find? term :=
  find?_foldl_setPostings (desk.sheets.keys_ascending.imp Bytes.ne_of_lt) _ _

/-- The postings that are worked on are those that there will be. -/
theorem postings_eq (desk : Desk) (term : Bytes) :
    desk.postings term = (desk.collected.find? term).getD [] := by
  rw [postings, find?_collected]
  rcases desk.sheets.find? term with _ | ps
  · rfl
  · rcases ps with _ | ⟨p, ps⟩ <;> rfl

/-- **Writing on a sheet is replacing the postings of the term.** -/
theorem collected_putSheet (desk : Desk) (term : Bytes) (ps : Postings) :
    (desk.putSheet term ps).collected = Index.setPostings desk.collected term ps := by
  refine Dict.ext_find? fun term' ↦ ?_
  rw [find?_collected, Index.find?_setPostings, find?_collected, putSheet, Dict.find?_insert]
  by_cases hterm : term = term' <;> simp [hterm]

/-! ### Jobs and steps of a change -/

/-- A desk on which an index has been worked out from the one that is published. -/
structure Drafts (desk : Desk) (old ix : Index) : Prop where
  published : desk.published = old
  draft : { desk.draft with terms := desk.collected } = ix
  version : ix.version = old.version

/-- How a desk is left: with the index worked out that a step makes, or with the error of the step.
Nothing has been published in either case. -/
inductive Left (old : Index) : Except Error Index → Desk × Option Error → Prop
  | done {desk : Desk} {ix : Index} (h : desk.Drafts old ix) : Left old (.ok ix) (desk, none)
  | failed {desk : Desk} (e : Error) (h : desk.published = old) : Left old (.error e) (desk, some e)

namespace Job

/-- A job that does at a desk what a step does to an index. -/
def Follows (job : Job) (step : Index → Except Error Index) : Prop :=
  ∀ desk old ix, desk.Drafts old ix → Left old (step ix) (job desk)

variable {first second : Job} {step step' : Index → Except Error Index}

/-- **One job after another follows one step after another.** -/
theorem Follows.andThen (hfirst : first.Follows step) (hsecond : second.Follows step') :
    (first.andThen second).Follows fun ix ↦ step ix >>= step' := by
  intro desk old ix h
  show Left old (step ix >>= step') _
  rw [Job.andThen]
  generalize hstep : step ix = result
  generalize hjob : first desk = state
  have hleft : Left old result state := hstep ▸ hjob ▸ hfirst desk old ix h
  cases hleft with
  | done h' => exact hsecond _ _ _ h'
  | failed e hold => exact .failed e hold

/-- A job for each item of a list follows a pass over the list. -/
theorem Follows.each {α : Type} {job : α → Job} {step : Index → α → Except Error Index}
    (h : ∀ x, (job x).Follows fun ix ↦ step ix x) (l : List α) :
    (Job.each job l).Follows fun ix ↦ l.foldlM step ix := by
  induction l with
  | nil => exact fun _ _ _ hdesk ↦ .done hdesk
  | cons x l ih =>
    intro desk old ix hdesk
    show Left old ((x :: l).foldlM step ix) _
    rw [List.foldlM_cons]
    exact (h x).andThen ih desk old ix hdesk

end Job

/-- The index with its terms replaced, if that succeeds. -/
def overTerms (f : Dict Postings → Except Error (Dict Postings)) (ix : Index) :
    Except Error Index :=
  (fun terms ↦ { ix with terms }) <$> f ix.terms

/-- A pass over an index that touches nothing but its terms. -/
theorem foldlM_overTerms {α : Type} (f : Dict Postings → α → Except Error (Dict Postings))
    (l : List α) (ix : Index) :
    l.foldlM (fun ix x ↦ overTerms (f · x) ix) ix =
      overTerms (fun terms ↦ l.foldlM f terms) ix := by
  induction l generalizing ix with
  | nil => rfl
  | cons x l ih =>
    rw [List.foldlM_cons, overTerms, overTerms]
    simp only [List.foldlM_cons]
    rcases f ix.terms x with e | terms
    · rfl
    · exact ih { ix with terms }

/-- Jobs that touch nothing but terms. -/
theorem follows_terms {α : Type} {job : α → Job}
    {f : Dict Postings → α → Except Error (Dict Postings)}
    (h : ∀ x, (job x).Follows (overTerms (f · x))) (l : List α) :
    (Job.each job l).Follows (overTerms fun terms ↦ l.foldlM f terms) := by
  intro desk old ix hdesk
  rw [← foldlM_overTerms]
  exact Job.Follows.each h l desk old ix hdesk

section Steps

variable {desk : Desk} {old ix : Index}

/-- Writing on a sheet at a desk on which an index is worked out. -/
theorem Drafts.putSheet (h : desk.Drafts old ix) (term : Bytes) (ps : Postings) :
    (desk.putSheet term ps).Drafts old
      { ix with terms := Index.setPostings ix.terms term ps } where
  published := h.published
  draft := by
    rw [collected_putSheet, ← h.draft]
    rfl
  version := h.version

/-- The postings that are worked on are those of the index that has been worked out. -/
theorem Drafts.postings (h : desk.Drafts old ix) (term : Bytes) :
    desk.postings term = (ix.terms.find? term).getD [] := by
  rw [postings_eq, ← h.draft]

theorem Drafts.documents (h : desk.Drafts old ix) : desk.draft.documents = ix.documents := by
  rw [← h.draft]

/-- Taking one posting of a document out. -/
theorem follows_retractTerm (id term : Bytes) :
    (retractTerm id term).Follows (overTerms fun terms ↦ Index.retractTerm id terms term) := by
  intro desk old ix h
  rw [retractTerm, h.postings, overTerms, Index.retractTerm]
  rcases Index.splitAt id ((ix.terms.find? term).getD []) with ⟨before, _ | ⟨p, after⟩⟩
  · exact .failed _ h.published
  · dsimp only
    split
    · exact .done (h.putSheet term _)
    · exact .failed _ h.published

/-- Taking the entry of a document out. -/
theorem follows_strike (id : Bytes) (entry : DocumentEntry) : (strike id entry).Follows fun ix ↦
    .ok { ix with
      documents := ix.documents.erase id
      tokens := ix.tokens - entry.length.toUInt64 } := by
  rintro desk old ix ⟨hold, rfl, hversion⟩
  exact .done ⟨hold, rfl, hversion⟩

/-- **Taking a document out at a desk follows retracting it.** -/
theorem follows_retract (id : Bytes) : (retract id).Follows (Index.retract · id) := by
  intro desk old ix h
  show Left old (ix.retract id) _
  rw [retract, h.documents]
  rcases hfind : ix.documents.find? id with _ | entry
  · rw [Index.retract_of_none hfind]
    exact .done h
  · have hall : Left old (overTerms (entry.terms.foldlM (Index.retractTerm id)) ix >>= _) _ :=
      (follows_terms (follows_retractTerm id) entry.terms).andThen (follows_strike id entry)
        desk old ix h
    rw [overTerms] at hall
    rw [Index.retract_of_some hfind]
    generalize entry.terms.foldlM (Index.retractTerm id) ix.terms = result at hall ⊢
    rcases result with e | terms
    · exact hall
    · exact hall

/-- Putting one posting of a document in. -/
theorem follows_recordTerm (d : AnalyzedDocument) (term : Bytes) :
    (recordTerm d term).Follows (overTerms fun terms ↦ .ok (Index.recordTerm d terms term)) := by
  intro desk old ix h
  rw [overTerms, Index.recordTerm_eq, ← h.postings]
  exact .done (h.putSheet term _)

/-- Putting the entry of a document in. -/
theorem follows_enter (d : AnalyzedDocument) : (enter d).Follows fun ix ↦ .ok { ix with
    documents := ix.documents.insert d.id d.entry
    tokens := ix.tokens + d.entry.length.toUInt64 } := by
  rintro desk old ix ⟨hold, rfl, hversion⟩
  exact .done ⟨hold, rfl, hversion⟩

/-- **Putting a document in at a desk follows recording it.** -/
theorem follows_record (d : AnalyzedDocument) :
    (record d).Follows fun ix ↦ .ok (ix.record d) := by
  intro desk old ix h
  have hall : Left old (overTerms (d.terms.toList.foldlM _) ix >>= _) _ :=
    (follows_terms (follows_recordTerm d) d.terms.toList).andThen (follows_enter d) desk old ix h
  have hplain : d.terms.toList.foldlM
      (fun terms term ↦ (.ok (Index.recordTerm d terms term) : Except Error _)) ix.terms =
      .ok (d.terms.toList.foldl (Index.recordTerm d) ix.terms) := List.foldlM_pure
  rw [overTerms, hplain] at hall
  exact hall

/-- **Replacing a document at a desk follows replacing it.** -/
theorem follows_replace (d : AnalyzedDocument) : (replace d).Follows (Index.replace · d) :=
  (follows_retract d.id).andThen (follows_record d)

/-! ### Changes -/

/-- A change begins with the published index worked out. -/
theorem drafts_cleared (desk : Desk) : desk.cleared.Drafts desk.published desk.published :=
  ⟨rfl, rfl, rfl⟩

/-- The published index of a desk and the error that a job ends with. -/
def seen (result : Desk × Option Error) : Index × Option Error :=
  (result.1.published, result.2)

/-- An index with the result of a step that has been made from it, and the error if it failed. -/
def outcome (old : Index) : Except Error Index → Index × Option Error
  | .ok ix => (ix, none)
  | .error e => (old, some e)

/-- **A job and then the publication**: either the index that has been worked out is published, or
the error is reported and nothing is published. -/
theorem seen_publish {job : Job} {step : Index → Except Error Index} (h : job.Follows step)
    (desk : Desk) : seen ((job.andThen publish) desk.cleared) =
      outcome desk.published (Index.publish <$> step desk.published) := by
  have hleft := h desk.cleared desk.published desk.published desk.drafts_cleared
  rw [Job.andThen]
  generalize step desk.published = result at hleft
  generalize job desk.cleared = state at hleft
  cases hleft with
  | @done desk' ix h' =>
    obtain ⟨hold, rfl, hversion⟩ := h'
    show (({ desk'.draft with
      terms := desk'.collected, version := desk'.published.version + 1 } : Index), none) = _
    rw [hold, ← hversion]
    rfl
  | failed e hold => rw [← hold]; rfl

/-- **A batch that is added at a desk** changes the published index as it changes any index. -/
theorem seen_add (a : Analyzer) (batch : List Document) (desk : Desk) :
    seen (add a batch desk) = desk.published.after a (.add batch) := by
  show _ = outcome desk.published (desk.published.add a batch)
  rw [add, Index.add]
  rcases batch.mapM (Document.analyze a) with fault | analyzed
  · rfl
  · exact (seen_publish (Job.Follows.each follows_replace analyzed) desk).trans
      (congrArg (outcome desk.published) (map_eq_pure_bind _ _))

/-- **So does the removal of a document** that is there. -/
theorem seen_remove {id : Bytes} {desk : Desk} (hknown : desk.published.hasDocument id = true) :
    seen (remove id desk) =
      outcome desk.published (Index.publish <$> desk.published.retract id) := by
  rw [remove, if_pos hknown]
  exact seen_publish (follows_retract id) desk

end Steps

/-! ### As a whole or not at all -/

/-- How a batch is added at a desk: all of it as one version, or nothing. -/
structure AddsAsWhole (a : Analyzer) (batch : List Document) (desk : Desk) : Prop where
  /-- What is published stays as it is if the job fails, wherever that is. -/
  untouched : ∀ e, (add a batch desk).2 = some e → (add a batch desk).1.published = desk.published
  /-- It is a document that is at fault, or a posting that the index lacks of one of them. -/
  failed : ∀ e, (add a batch desk).2 = some e → (∃ fault, e = .ingest fault) ∨
    ∃ d ∈ batch, ∃ term, e = .index (.missingPosting d.id term)
  /-- What is published else is the next version, and has gained the documents of the batch. -/
  published : (add a batch desk).2 = none →
    (add a batch desk).1.published.version = desk.published.version + 1 ∧
      desk.published.Gains a batch (add a batch desk).1.published

/-- Which batches are refused at a desk: those with a document that is not well-formed. -/
structure RefusesIllFormed (a : Analyzer) (batch : List Document) (desk : Desk) : Prop where
  /-- It is the documents that are at fault exactly if one of them is not well-formed. -/
  refused : (∃ fault, (add a batch desk).2 = some (.ingest fault)) ↔
    ∃ d ∈ batch, ¬ d.IsWellFormed
  /-- The fault is that of the first such document. -/
  first : ∀ before d after, batch = before ++ d :: after → (∀ d' ∈ before, d'.IsWellFormed) →
    ¬ d.IsWellFormed →
      ∃ fault, d.HasFault Utf8.isValid fault ∧ (add a batch desk).2 = some (.ingest fault)

/-- How a document is removed at a desk: as one version, or nothing. -/
structure RemovesAsWhole (id : Bytes) (desk : Desk) : Prop where
  /-- What is published stays as it is if the job fails. -/
  untouched : ∀ e, (remove id desk).2 = some e → (remove id desk).1.published = desk.published
  /-- It can only fail for a posting that the index lacks of the document. -/
  missing : ∀ e, (remove id desk).2 = some e → ∃ term, e = .index (.missingPosting id term)
  /-- To remove an unknown document is no change. -/
  unknown : desk.published.hasDocument id = false → remove id desk = (desk, none)
  /-- What is published else is the next version, and has lost the document. -/
  published : desk.published.hasDocument id = true → (remove id desk).2 = none →
    (remove id desk).1.published.version = desk.published.version + 1 ∧
      desk.published.Loses id (remove id desk).1.published

/-- What is seen of an addition, by whether it succeeds. -/
theorem add_cases (a : Analyzer) (batch : List Document) (desk : Desk) :
    (∃ ix, desk.published.add a batch = .ok ix ∧ (add a batch desk).1.published = ix ∧
        (add a batch desk).2 = none) ∨
      ∃ e, desk.published.add a batch = .error e ∧
        (add a batch desk).1.published = desk.published ∧ (add a batch desk).2 = some e := by
  have hseen : seen (add a batch desk) = outcome desk.published (desk.published.add a batch) :=
    seen_add a batch desk
  rcases h : desk.published.add a batch with e | ix
  · rw [h] at hseen
    exact .inr ⟨e, rfl, congrArg Prod.fst hseen, congrArg Prod.snd hseen⟩
  · rw [h] at hseen
    exact .inl ⟨ix, rfl, congrArg Prod.fst hseen, congrArg Prod.snd hseen⟩

/-- The first document that cannot be added is what the batch is refused for. -/
theorem add_first {before : List Document} {d : Document} (after : List Document)
    (hbefore : ∀ d' ∈ before, d'.CanBeAdded) (h : ¬ d.CanBeAdded) (desk : Desk) :
    ∃ fault, d.HasFault Utf8.passes fault ∧
      (add a (before ++ d :: after) desk).2 = some (.ingest fault) := by
  obtain ⟨fault, hfault, herror⟩ := Document.analyzeAll_error (a := a) after hbefore h
  exact ⟨fault, hfault, by rw [add, herror]⟩

/-- Else the batch can only fail for a missing posting. -/
theorem add_missing {batch : List Document} {desk : Desk} {e : Error}
    (hall : ∀ d ∈ batch, d.CanBeAdded) (h : (add a batch desk).2 = some e) :
    ∃ d ∈ batch, ∃ term, e = .index (.missingPosting d.id term) := by
  rcases add_cases a batch desk with ⟨ix, -, -, hnone⟩ | ⟨e', herror, -, he'⟩
  · exact nomatch hnone.symm.trans h
  · rw [← Option.some.inj (he'.symm.trans h)]
    exact Index.missing_of_add hall herror

/-- **A batch is refused exactly if one of its documents cannot be added.** -/
theorem add_refused_iff {batch : List Document} {desk : Desk} :
    (∃ fault, (add a batch desk).2 = some (.ingest fault)) ↔ ∃ d ∈ batch, ¬ d.CanBeAdded := by
  constructor
  · rintro ⟨fault, hfault⟩
    by_contra hall
    obtain ⟨d, -, term, he⟩ :=
      add_missing (fun d hd ↦ not_not.1 fun hill ↦ hall ⟨d, hd, hill⟩) hfault
    cases he
  · rintro ⟨d, hd, hill⟩
    obtain ⟨before, d', after, rfl, hbefore, hd'⟩ :=
      Document.exists_first fun hall ↦ hill (hall d hd)
    obtain ⟨fault, -, hfault⟩ := add_first after hbefore hd' desk
    exact ⟨fault, hfault⟩

/-- **A batch is added as a whole or not at all**, because it is seen as a change of the published
index. -/
theorem addsAsWhole (a : Analyzer) (batch : List Document) (desk : Desk) :
    AddsAsWhole a batch desk := by
  refine ⟨fun e he ↦ ?_, fun e he ↦ ?_, fun hnone ↦ ?_⟩
  · rcases add_cases a batch desk with ⟨ix, -, -, hnone⟩ | ⟨e', -, hold, -⟩
    · exact nomatch hnone.symm.trans he
    · exact hold
  · by_cases hall : ∀ d ∈ batch, d.CanBeAdded
    · exact .inr (add_missing hall he)
    · obtain ⟨before, d, after, rfl, hbefore, hd⟩ := Document.exists_first hall
      obtain ⟨fault, -, hfault⟩ := add_first (a := a) after hbefore hd desk
      exact .inl ⟨fault, Option.some.inj (he.symm.trans hfault)⟩
  · rcases add_cases a batch desk with ⟨ix, hok, hnew, -⟩ | ⟨e, -, -, hsome⟩
    · rw [hnew]
      exact Index.gains_of_add hok
    · exact nomatch hnone.symm.trans hsome

/-- **So is a document removed.** -/
theorem removesAsWhole (id : Bytes) (desk : Desk) : RemovesAsWhole id desk := by
  rcases hknown : desk.published.hasDocument id with _ | _
  · have hsame : remove id desk = (desk, none) := by rw [remove, hknown]; rfl
    refine ⟨fun e _ ↦ by rw [hsame], fun e he ↦ ?_, fun _ ↦ hsame,
      fun h ↦ nomatch hknown.symm.trans h⟩
    rw [hsame] at he
    cases he
  · have hseen := seen_remove hknown
    have hunknown : desk.published.hasDocument id = false → remove id desk = (desk, none) :=
      fun h ↦ nomatch hknown.symm.trans h
    rcases hretract : desk.published.retract id with e' | ix
    · rw [hretract] at hseen
      have hold : (remove id desk).1.published = desk.published := congrArg Prod.fst hseen
      have hsome : (remove id desk).2 = some e' := congrArg Prod.snd hseen
      refine ⟨fun _ _ ↦ hold, fun e he ↦ ?_, hunknown,
        fun _ hnone ↦ nomatch hnone.symm.trans hsome⟩
      rw [← Option.some.inj (hsome.symm.trans he)]
      exact Index.missing_of_retract hretract
    · rw [hretract] at hseen
      have hnew : (remove id desk).1.published = ix.publish := congrArg Prod.fst hseen
      have hnone : (remove id desk).2 = none := congrArg Prod.snd hseen
      refine ⟨fun e he ↦ (nomatch hnone.symm.trans he), fun e he ↦ (nomatch hnone.symm.trans he),
        hunknown, fun _ _ ↦ ?_⟩
      obtain ⟨hdocuments, hsurplus, htaken, hothers⟩ := Index.loses_of_retract hretract
      rw [hnew]
      exact ⟨congrArg (· + 1) (Index.version_of_retract hretract),
        hdocuments, hsurplus, htaken, hothers⟩

/-! ### How long a text may be -/

/-- Short texts are well-formed if they are taken for it. -/
theorem refusesIllFormed {n : Nat} (hn : n < 2 ^ 31) {batch : List Document}
    (hbatch : ∀ d ∈ batch, ∀ text ∈ d.fields.values, text.length ≤ n) (desk : Desk) :
    RefusesIllFormed a batch desk := by
  have htest : ∀ d ∈ batch, ∀ f ∈ d.fields.entries, Utf8.passes f.2 = Utf8.isValid f.2 := by
    intro d hd f hf
    have hlength := hbatch d hd f.2 (List.mem_map_of_mem hf)
    rw [Utf8.passes, reached_of_lt (by omega)]
  have hiff : ∀ d ∈ batch, d.CanBeAdded ↔ d.IsWellFormed :=
    fun d hd ↦ Document.meets_congr (htest d hd)
  refine ⟨?_, ?_⟩
  · rw [add_refused_iff]
    exact exists_congr fun d ↦ and_congr_right fun hd ↦ not_congr (hiff d hd)
  · rintro before d after rfl hbefore hd
    have hmem : d ∈ before ++ d :: after := List.mem_append_right before List.mem_cons_self
    obtain ⟨fault, hfault, hadd⟩ := add_first (a := a) after
      (fun d' hd' ↦ (hiff d' (List.mem_append_left _ hd')).2 (hbefore d' hd'))
      (fun hadded ↦ hd ((hiff d hmem).1 hadded)) desk
    exact ⟨fault, hfault.congr (htest d hmem), hadd⟩

/-- The first text that is too long is not looked at. -/
theorem exists_not_refusesIllFormed (a : Analyzer) (desk : Desk) : ∃ batch : List Document,
    (∀ d ∈ batch, ∀ text ∈ d.fields.values, text.length = 2 ^ 31) ∧
      ¬ RefusesIllFormed a batch desk := by
  obtain ⟨tail, htail⟩ : ∃ tail : Bytes, tail.length = 2 ^ 31 - 1 :=
    ⟨.replicate _ 0xFF, List.length_replicate⟩
  have hlength : (0xFF :: tail).length = 2 ^ 31 := congrArg (· + 1) htail
  have hill : Utf8.isValid (0xFF :: tail) = false := rfl
  have hpasses : Utf8.passes (0xFF :: tail) = true := by
    rw [Utf8.passes, reached_of_length_eq hlength]
    rfl
  refine ⟨[⟨utf8 "1", (∅ : Dict Bytes).insert (utf8 "title") (0xFF :: tail)⟩],
    List.forall_mem_singleton.2 (List.forall_mem_singleton.2 hlength), fun h ↦ ?_⟩
  have hrefused : ∃ fault, (add a _ desk).2 = some (.ingest fault) :=
    h.refused.2 ⟨_, List.mem_singleton_self _, fun hall ↦ ?_⟩
  · obtain ⟨d, hd, hd'⟩ := add_refused_iff.1 hrefused
    rw [List.mem_singleton.1 hd] at hd'
    exact hd' ⟨List.cons_ne_nil _ _, List.cons_ne_nil _ _,
      List.forall_mem_singleton.2 ⟨List.cons_ne_nil _ _, hpasses⟩⟩
  · have htext := (hall.2.2 (utf8 "title", 0xFF :: tail) (List.mem_singleton_self _)).2
    exact nomatch hill.symm.trans htext

/-- The second document of a batch lists a term that has no postings. By then the first has been put
into the draft, and the term has a sheet. -/
example :
    let bad : Index := ⟨∅, .ofList [(utf8 "b", ⟨∅, [utf8 "hat"]⟩)], 0, 7⟩
    let fields : Dict Bytes := .ofList [(utf8 "t", utf8 "-")]
    let (desk, result) := add {} [⟨utf8 "a", fields⟩, ⟨utf8 "b", fields⟩] ⟨bad, .empty, ∅⟩
    result = some (.index (.missingPosting (utf8 "b") (utf8 "hat"))) ∧ desk.published = bad ∧
      desk.draft.documents.keys = [utf8 "a", utf8 "b"] ∧ desk.sheets.keys = [utf8 "hat"] := by
  decide

end Desk

end Concordance
