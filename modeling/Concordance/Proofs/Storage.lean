import Concordance.Proofs.Dict
import Concordance.Storage

/-!
# What is at a path

Where a path leads depends on the directories only, and writing and moving files leaves these as
they are. So after an index has been saved, what can be read at its path is its archive
(`read_of_save`). Loading is reading and then decoding (`load_of_read`).
-/

namespace Concordance.Storage

variable {st st' : Storage} {path content : Bytes}

/-! ### Places -/

theorem isDirectory_congr (h : st'.directories = st.directories) (p : Place) :
    st'.isDirectory p = st.isDirectory p := by
  rw [isDirectory, isDirectory, h]

theorem follow?_congr (h : st'.directories = st.directories) (names : List Bytes) :
    ∀ p, st'.follow? p names = st.follow? p names := by
  induction names with
  | nil => exact fun p ↦ rfl
  | cons name rest ih =>
    intro p
    rw [follow?, follow?, isDirectory_congr h, ih]

/-- **Where a path leads depends on the directories only.** -/
theorem place?_congr (h : st'.directories = st.directories) (path : Bytes) :
    st'.place? path = st.place? path := by
  rw [place?, place?]
  simp only [follow?_congr h]

/-! ### Saving -/

/-- A file that has been written is at the place that its path leads to. -/
theorem exists_place_of_write (h : st.write path content = .ok st') : ∃ p, st.place? path = some p ∧
    st' = { st with files := st.files.insert p.path content } := by
  rw [write] at h
  rcases hplace : st.writable? path with _ | p
  · rw [hplace] at h
    cases h
  · rw [hplace] at h
    rw [writable?, Option.filter_eq_some_iff] at hplace
    exact ⟨p, hplace.1, (Except.ok.inj h).symm⟩

/-- What can be moved to a path is moved to a place that the path leads to. -/
theorem exists_place_of_rename {source target : Bytes} {old : Place}
    (hold : st.place? source = some old) (hcontent : st.files.find? old.path = some content)
    (h : st.rename source target = .ok st') : formFault? target = none ∧
      ∃ new, st.place? target = some new ∧
        st' = { st with files := (st.files.erase old.path).insert new.path content } := by
  rw [rename] at h
  rcases hform : formFault? target with _ | fault
  · rw [hform, hold] at h
    rcases hnew : st.place? target with _ | new
    · rw [hnew] at h
      cases h
    · simp only [hnew, hcontent] at h
      split at h
      · cases h
      · exact ⟨rfl, new, rfl, (Except.ok.inj h).symm⟩
  · rw [hform] at h
    cases h

/-- What is in a file can be read at a path that leads to it. -/
theorem read_of_find? {p : Place} (hplace : st.place? path = some p)
    (hcontent : st.files.find? p.path = some content) : st.read path = .ok content := by
  rw [read, hplace, Option.bind_some, content?, hcontent]

/-- What has been moved to a path can be read there. -/
theorem read_of_rename {source target : Bytes} {old : Place} (hold : st.place? source = some old)
    (hcontent : st.files.find? old.path = some content) (h : st.rename source target = .ok st') :
    st'.read target = .ok content := by
  obtain ⟨-, new, hnew, rfl⟩ := exists_place_of_rename hold hcontent h
  refine read_of_find? ((place?_congr (by rfl) target).trans hnew) ?_
  rw [Dict.find?_insert, if_pos rfl]

/-- **What has been saved at a path is the archive of the index.** -/
theorem read_of_save {ix : Index} (h : st.save ix path true = (st', .ok ())) :
    st'.read path = .ok (Archive.encode ix) := by
  rw [save] at h
  rcases hwrite : st.write (draftPath path) (Archive.encode ix) with fault | written
  · simp only [hwrite, Prod.mk.injEq, reduceCtorEq, and_false] at h
  · obtain ⟨p, hplace, hwritten⟩ := exists_place_of_write hwrite
    rcases hrename : written.rename (draftPath path) path with fault | saved
    · simp only [hwrite, hrename, if_true, Prod.mk.injEq, reduceCtorEq, and_false] at h
    · simp only [hwrite, hrename, if_true, Prod.mk.injEq, and_true] at h
      -- the draft is where it was written, and from there it is moved
      have hdirectories : written.directories = st.directories := by rw [hwritten]
      have hplace' : written.place? (draftPath path) = some p := by
        rw [place?_congr hdirectories, hplace]
      have hcontent : written.files.find? p.path = some (Archive.encode ix) := by
        rw [hwritten, Dict.find?_insert, if_pos rfl]
      rw [← h]
      exact read_of_rename hplace' hcontent hrename

/-! ### Loading -/

theorem load_of_read (h : st.read path = .ok content) : st.load path =
    match Archive.decode content with
    | .ok found => .ok found
    | .error fault => .error (.archive path fault) := by
  rw [load, h]
  rfl

/-- **What is loaded has been read and decoded.** -/
theorem load_eq_ok_iff {found : Archive.Header × Index} : st.load path = .ok found ↔
    ∃ content, st.read path = .ok content ∧ Archive.decode content = .ok found := by
  rcases hread : st.read path with fault | content
  · rw [load, hread]
    exact ⟨nofun, fun ⟨_, h, _⟩ ↦ nomatch h⟩
  · rw [load_of_read hread]
    constructor
    · intro h
      refine ⟨content, rfl, ?_⟩
      split at h
      · rename_i hdecode
        rw [hdecode, Except.ok.inj h]
      · cases h
    · rintro ⟨_, hcontent, hdecode⟩
      rw [Except.ok.inj hcontent, hdecode]

end Concordance.Storage
