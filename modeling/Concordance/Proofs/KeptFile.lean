import Concordance.Proofs.DraftPaths
import Concordance.Proofs.SaveAndLoad
import Concordance.Text.Table

/-!
# The file of a kept engine

Where there is no draft, a save ends in one of three ways: it fails and leaves the files as they
are, it was not to be committed and leaves them as they are, or the archive of the index stands in
the place of the file (`saved_save`). So whatever is done with an engine that is kept at a path, the
file holds the archive of the index that was last saved, no draft is left, and loading makes that
index current again (`file_holds_last_saved`).

Loading goes back to an index of the past, so the invariant is about two indexes: the current one
and the one that was saved are both what documents make of an empty index (`Index.IsExact`).
-/

namespace Concordance

namespace Storage

variable {st : Storage} {ix : Index} {path content : Bytes}

/-! ### Saving where there is no draft -/

/-- What a save leaves. -/
inductive Saved (st : Storage) (ix : Index) (path : Bytes) :
    Bool → Storage × Except Error Unit → Prop
  | fails (commit : Bool) (fault : Error) : Saved st ix path commit (st, .error fault)
  | drops : Saved st ix path false (st, .ok ())
  | commits {old new : Place} (hold : st.place? (draftPath path) = some old)
      (hnew : st.place? path = some new) (hform : formFault? path = none) :
      Saved st ix path true
        ({ st with files := st.files.insert new.path (Archive.encode ix) }, .ok ())

/-- **A save fails, or is dropped, or puts the archive in the place of the file.** -/
theorem saved_save (hdraft : st.fileAt? (draftPath path) = none) (ix : Index) (commit : Bool) :
    st.Saved ix path commit (st.save ix path commit) := by
  rw [save]
  rcases hwrite : st.write (draftPath path) (Archive.encode ix) with fault | written
  · exact .fails commit fault
  · obtain ⟨old, hold, hwritten⟩ := exists_place_of_write hwrite
    have hdirectories : written.directories = st.directories := by rw [hwritten]
    have hold' : written.place? (draftPath path) = some old := by
      rw [place?_congr hdirectories, hold]
    have hfree : old.path ∉ st.files.keys := by
      rw [fileAt?, hold, Option.bind_some] at hdraft
      exact Dict.find?_eq_none_iff.1 hdraft
    have herase : written.files.erase old.path = st.files := by
      rw [hwritten]
      exact Dict.erase_insert_of_notMem hfree
    -- without the draft, the files are what they were
    have hremove : written.remove (draftPath path) = st := by
      rw [remove, hold']
      simp only [herase]
      rw [hwritten]
    cases commit with
    | false =>
      simp only [hremove]
      exact .drops
    | true =>
      simp only [if_true]
      rcases hrename : written.rename (draftPath path) path with fault | saved
      · simp only [hremove]
        exact .fails true fault
      · have hcontent : written.files.find? old.path = some (Archive.encode ix) := by
          rw [hwritten, Dict.find?_insert, if_pos rfl]
        obtain ⟨hform, new, hnew, rfl⟩ := exists_place_of_rename hold' hcontent hrename
        rw [place?_congr hdirectories] at hnew
        rw [herase, hdirectories]
        exact .commits hold hnew hform

/-! ### The content of a file -/

theorem fileAt?_insert (st : Storage) (p : Place) (path content : Bytes) :
    { st with files := st.files.insert p.path content }.fileAt? path =
      (st.place? path).bind fun q ↦
        if p.path = q.path then some content else st.files.find? q.path := by
  have hplace : { st with files := st.files.insert p.path content }.place? path =
      st.place? path := place?_congr (by rfl) path
  rw [fileAt?, hplace]
  simp only [Dict.find?_insert]

theorem read_of_fileAt? (h : st.fileAt? path = some content) : st.read path = .ok content := by
  obtain ⟨p, hplace, hcontent⟩ := Option.bind_eq_some_iff.1 h
  exact read_of_find? hplace hcontent

/-- **What is loaded is the content of a file.** A directory can be read, but is no archive. -/
theorem exists_file_of_load {found : Archive.Header × Index} (h : st.load path = .ok found) :
    ∃ content, st.fileAt? path = some content ∧ Archive.decode content = .ok found := by
  obtain ⟨content, hread, hdecode⟩ := load_eq_ok_iff.1 h
  rw [read] at hread
  rcases hread' : (st.place? path).bind st.content? with _ | content'
  · rw [hread'] at hread
    cases hread
  · rw [hread'] at hread
    obtain rfl := Except.ok.inj hread
    obtain ⟨p, hplace, hcontent⟩ := Option.bind_eq_some_iff.1 hread'
    rw [content?] at hcontent
    rcases hfind : st.files.find? p.path with _ | found'
    · simp only [hfind] at hcontent
      split at hcontent
      · obtain rfl := Option.some.inj hcontent
        cases hdecode
      · cases hcontent
    · simp only [hfind] at hcontent
      refine ⟨content', ?_, hdecode⟩
      rw [fileAt?, hplace, Option.bind_some, hfind, hcontent]

/-- A save where there is no directory leaves everything as it is. -/
theorem LacksDirectory.save (h : st.LacksDirectory path) (ix : Index) (commit : Bool) :
    (st.save ix path commit).1 = st := by
  have hwrite : st.write (draftPath path) (Archive.encode ix) =
      .error (.cannotOpen (draftPath path)) := by
    rw [write, writable?, draftPath, h.place?_append]
    rfl
  rw [Storage.save, hwrite]

end Storage

namespace Keeper

variable {k : Keeper} {path : Bytes}

/-! ### What may be done -/

/-- A step as it may be taken: the words of documents can be counted, what is saved has no numbers
and strings that an archive has no room for, and another path is one without a directory. -/
def Step.IsAllowed (k : Keeper) : Step → Prop
  | .ingest batch => ∀ d ∈ batch, d.CanBeCounted k.engine.analyzer
  | .save => k.engine.index.IsCountable ∧ k.engine.index.AllStrings Bytes.Fits
  | .saveElsewhere other => k.storage.LacksDirectory other
  | _ => True

/-- What is reached from a beginning in any number of steps. -/
inductive Reached (path : Bytes) (start : Keeper) : Keeper → Prop
  | start : Reached path start start
  | step {k : Keeper} {step : Step} (h : Reached path start k) (hstep : step.IsAllowed k) :
      Reached path start (k.after path step)

/-- **The file is that of the index last saved.** The rest is what it takes to keep it so: both
indexes are exact, and the archive of the one gives it back. -/
structure KeepsFile (k : Keeper) (path : Bytes) : Prop where
  exact : k.engine.index.IsExact
  draft : k.storage.fileAt? (Storage.draftPath path) = none
  file : k.storage.fileAt? path = k.saved.map Archive.encode
  exactSaved : ∀ ix, k.saved = some ix → ix.IsExact
  readable : ∀ ix, k.saved = some ix →
    Archive.decode (Archive.encode ix) = .ok (Archive.header ix, ix)

/-! ### One step -/

/-- What was saved is loaded. -/
theorem KeepsFile.load_eq (h : k.KeepsFile path) {ix : Index} (hsaved : k.saved = some ix) :
    k.engine.load k.storage path = .ok { k.engine with index := ix } := by
  have hfile := h.file
  rw [hsaved, Option.map_some] at hfile
  exact Engine.load_eq_ok_iff.2 ⟨(Archive.header ix, ix),
    Storage.load_eq_ok_iff.2 ⟨_, Storage.read_of_fileAt? hfile, h.readable ix hsaved⟩, rfl⟩

/-- **A load makes the index that was saved current**, if it succeeds. -/
theorem KeepsFile.load (h : k.KeepsFile path) : (k.after path .load).KeepsFile path := by
  suffices hexact : (k.engine.after (.load k.storage path)).1.index.IsExact from
    { h with exact := hexact }
  refine Engine.after_of_act (P := fun e ↦ e.index.IsExact) h.exact fun e hact ↦ ?_
  obtain ⟨found, hload, rfl⟩ := Engine.load_eq_ok_iff.1 hact
  obtain ⟨content, hcontent, hdecode⟩ := Storage.exists_file_of_load hload
  rw [h.file] at hcontent
  obtain ⟨ix, hsaved, rfl⟩ := Option.map_eq_some_iff.1 hcontent
  obtain rfl := Except.ok.inj ((h.readable ix hsaved).symm.trans hdecode)
  exact h.exactSaved ix hsaved

/-- **A save puts the archive of the index in the place of the file**, or fails and changes
nothing. -/
theorem KeepsFile.save (hzero : 0 ∉ path) (h : k.KeepsFile path)
    (hcounts : k.engine.index.IsCountable) (hstrings : k.engine.index.AllStrings Bytes.Fits) :
    (k.after path .save).KeepsFile path := by
  rw [after, Engine.save]
  have hsave := Storage.saved_save h.draft k.engine.index true
  generalize k.storage.save k.engine.index path true = result at hsave
  cases hsave with
  | fails fault => exact h
  | @commits old new hold hnew hform =>
    have hne := Storage.path_draft_ne hzero hform hold hnew
    have hreads := Archive.reads_archive (h.exact.storable hcounts) hstrings
    have hdraft := h.draft
    rw [Storage.fileAt?, hold] at hdraft
    refine ⟨h.exact, ?_, ?_, ?_, ?_⟩
    · rw [Storage.fileAt?_insert, hold, Option.bind_some, if_neg hne.symm]
      exact hdraft
    · rw [Storage.fileAt?_insert, hnew, Option.bind_some, if_pos rfl]
      rfl
    · intro ix hix
      obtain rfl := Option.some.inj hix
      exact h.exact
    · intro ix hix
      obtain rfl := Option.some.inj hix
      exact Archive.decode_of_reads hreads

/-- An archive that is given up leaves nothing. -/
theorem KeepsFile.abandon (h : k.KeepsFile path) (index : Index) :
    (k.after path (.abandon index)).KeepsFile path := by
  rw [after]
  have hsave := Storage.saved_save h.draft index false
  generalize k.storage.save index path false = result at hsave
  cases hsave with
  | fails fault => exact h
  | drops => exact h

/-- **Every step keeps the file that of the index last saved.** -/
theorem KeepsFile.after (hzero : 0 ∉ path) (h : k.KeepsFile path) {step : Step}
    (hstep : step.IsAllowed k) : (k.after path step).KeepsFile path := by
  cases step with
  | ingest batch => exact { h with exact := Engine.isExact_after h.exact hstep }
  | remove id =>
    have hremove : Engine.Action.Updates (·.CanBeCounted k.engine.analyzer) (fun _ ↦ True)
        (.remove id) := trivial
    exact { h with exact := Engine.isExact_after h.exact hremove }
  | search o query => exact h
  | load => exact h.load
  | save => exact h.save hzero hstep.1 hstep.2
  | saveElsewhere other =>
    rw [Keeper.after, Engine.save, Storage.LacksDirectory.save hstep]
    exact h
  | abandon index => exact h.abandon index

/-! ### Any number of steps -/

theorem keepsFile_of_reached {start : Keeper} (hzero : 0 ∉ path) (hstart : start.KeepsFile path)
    (h : Reached path start k) : k.KeepsFile path := by
  induction h with
  | start => exact hstart
  | step _ hstep ih => exact ih.after hzero hstep

/-- **The file always holds the index that was last saved.** After any steps with an engine that
begins with no file at its path, there is no draft, and there is no file unless a save has
succeeded, and then it is the archive of the index that was current at the last such save, which a
load makes current again. A zero byte would end the path before the ending of its draft. -/
theorem file_holds_last_saved [Orthography] {settings : Settings} {e₀ : Engine}
    (hsettings : Engine.ofSettings settings = .ok e₀) {st : Storage} (hzero : 0 ∉ path)
    (hfile : st.fileAt? path = none) (hdraft : st.fileAt? (Storage.draftPath path) = none)
    (h : Reached path ⟨e₀, st, none⟩ k) :
    k.storage.fileAt? path = k.saved.map Archive.encode ∧
      k.storage.fileAt? (Storage.draftPath path) = none ∧
      ∀ ix, k.saved = some ix →
        k.engine.load k.storage path = .ok { k.engine with index := ix } := by
  have hstart : KeepsFile ⟨e₀, st, none⟩ path :=
    ⟨(Engine.fresh_of_ofSettings hsettings).2 ▸ .empty, hdraft, hfile, nofun, nofun⟩
  have hkeeps := keepsFile_of_reached hzero hstart h
  exact ⟨hkeeps.file, hkeeps.draft, fun ix ↦ hkeeps.load_eq⟩

/-- A document that is taken out after the index was saved, with an archive that is given up and one
that is not even begun. -/
theorem file_holds_last_saved_removed :
    let path := utf8 "index.tsx"
    let other := utf8 "none/index.tsx"
    let d : Document := ⟨utf8 "1", .ofList [(utf8 "title", utf8 "hat")]⟩
    let p : Posting := ⟨utf8 "1", [⟨utf8 "title", [0]⟩], 1⟩
    let entry : DocumentEntry := ⟨.ofList [(utf8 "title", 1)], [utf8 "hat"]⟩
    let ix : Index := ⟨.ofList [(utf8 "hat", [p])], .ofList [(utf8 "1", entry)], 1, 1⟩
    let e₀ : Engine := ⟨{}, {}, .tfidf, ⟨[]⟩, .empty⟩
    let k₁ := Keeper.after ⟨e₀, .empty, none⟩ path (.ingest [d])
    let k₂ := k₁.after path .save
    let k₃ := k₂.after path (.remove (utf8 "1"))
    let k₄ := k₃.after path (.abandon k₃.engine.index)
    let k₅ := k₄.after path (.saveElsewhere other)
    Engine.ofSettings {} = .ok e₀ ∧ 0 ∉ path ∧ Storage.empty.fileAt? path = none ∧
      Storage.empty.fileAt? (Storage.draftPath path) = none ∧
      Reached path ⟨e₀, .empty, none⟩ k₅ ∧ k₅.saved = some ix ∧
      k₅.storage.fileAt? path = some (Archive.encode ix) ∧
      k₅.storage.fileAt? (Storage.draftPath path) = none ∧
      k₅.engine.index.documents.isEmpty = true ∧
      k₅.engine.load k₅.storage path = .ok { k₅.engine with index := ix } := by
  intro path other d p entry ix e₀ k₁ k₂ k₃ k₄ k₅
  have hsettings : Engine.ofSettings {} = .ok e₀ := by rfl
  have hindex : k₁.engine.index = ix := by rfl
  have hentry : entry.Fits := ⟨by decide, by decide, by decide⟩
  have hp : p.Fits := ⟨by decide, by decide, by decide⟩
  have hix : ix.Fits := ⟨by rfl, by decide, by decide, by decide,
    List.forall_mem_singleton.2 hentry,
    by decide, by decide, List.forall_mem_singleton.2 ⟨by decide, List.forall_mem_singleton.2 hp⟩⟩
  have hingest : Step.IsAllowed ⟨e₀, .empty, none⟩ (.ingest [d]) :=
    List.forall_mem_singleton.2 (by decide)
  have hother : k₄.storage.LacksDirectory other := ⟨utf8 "none", utf8 "index.tsx", by rfl, by rfl⟩
  have hreached : Reached path ⟨e₀, .empty, none⟩ k₅ :=
    .step (.step (.step (.step (.step .start hingest) ⟨hindex ▸ hix.isCountable,
      hindex ▸ hix.allStrings⟩) trivial) trivial) hother
  have hsaved : k₅.saved = some ix := by rfl
  have hempty : k₅.engine.index.documents.isEmpty = true := by rfl
  obtain ⟨hfile, hdraft, hload⟩ :=
    file_holds_last_saved hsettings (by decide) (by rfl) (by rfl) hreached
  rw [hsaved] at hfile
  exact ⟨hsettings, by decide, by rfl, by rfl, hreached, hsaved, hfile, hdraft, hempty,
    hload ix hsaved⟩

end Keeper

end Concordance
