import Concordance.Engine.History
import Concordance.Proofs.AcceptedFiles
import Concordance.Proofs.Storage
import Concordance.Text.Table

/-!
# Files that stop too early

A reader goes from the front of a file to the back and never looks ahead. So if it succeeds, it has
taken some bytes from the front, its answer depends on these alone, and of any file that stops
before their end it says that it is truncated (`IsSequential`). Every way in which readers are put
together keeps this, so the reader of a whole archive has it, and the bytes that it takes of an
archive that was written are all of them: where such a file is cut off, loading it fails and changes
nothing (`load_cut_off`).
-/

namespace Concordance

namespace Archive

variable {α β σ : Type}

/-- A reader that looks at nothing but what it takes, and that misses whatever is not there. -/
def IsSequential (r : Reader α) : Prop :=
  ∀ s a z, r.run s = .ok (a, z) → ∃ taken, s = taken ++ z ∧ Reads r taken a ∧
    ∀ p, p <+: taken → p ≠ taken → r.run p = .error .truncated

namespace IsSequential

variable {r : Reader α}

/-! ### One reader after another -/

protected theorem pure (a : α) : IsSequential (pure a) := by
  intro s a' z hrun
  obtain ⟨rfl, rfl⟩ := Prod.mk.inj (Except.ok.inj hrun)
  exact ⟨[], rfl, .pure a, fun p hp hne ↦ absurd (List.prefix_nil.1 hp) hne⟩

theorem throw (fault : ArchiveFault) : IsSequential (MonadExcept.throw fault : Reader α) :=
  nofun

/-- A beginning of two runs of bytes ends within the first or within the second. -/
theorem prefix_append_cases {p u v : Bytes} (h : p <+: u ++ v) :
    p <+: u ∧ p ≠ u ∨ ∃ q, p = u ++ q ∧ q <+: v := by
  rcases List.prefix_or_prefix_of_prefix h (List.prefix_append u v) with hpu | ⟨q, rfl⟩
  · by_cases heq : p = u
    · exact .inr ⟨[], by rw [heq, List.append_nil], List.nil_prefix⟩
    · exact .inl ⟨hpu, heq⟩
  · exact .inr ⟨q, rfl, (List.prefix_append_right_inj u).1 h⟩

/-- **One reader after another** takes the bytes of both, and misses those of either. -/
protected theorem bind {f : α → Reader β} (h : IsSequential r) (h' : ∀ a, IsSequential (f a)) :
    IsSequential (r >>= f) := by
  intro s b z hrun
  rw [StateT.run_bind] at hrun
  rcases hr : r.run s with e | ⟨a, s'⟩
  · rw [hr] at hrun
    cases hrun
  · rw [hr] at hrun
    obtain ⟨first, rfl, hreads, hmisses⟩ := h s a s' hr
    obtain ⟨second, rfl, hreads', hmisses'⟩ := h' a s' b z hrun
    refine ⟨first ++ second, (List.append_assoc ..).symm, hreads.bind hreads', fun p hp hne ↦ ?_⟩
    rw [StateT.run_bind]
    rcases prefix_append_cases hp with ⟨hp, hne⟩ | ⟨q, rfl, hq⟩
    · rw [hmisses p hp hne]
      rfl
    · rw [hreads q]
      exact hmisses' q hq fun heq ↦ hne (heq ▸ rfl)

protected theorem map (f : α → β) (h : IsSequential r) : IsSequential (f <$> r) := by
  rw [map_eq_pure_bind]
  exact h.bind fun a ↦ .pure (f a)

/-- A file may be refused for what has been read of it. -/
theorem refuse {c : Prop} [Decidable c] {fault : ArchiveFault} {rest : PUnit → Reader α}
    (h : IsSequential (rest ())) :
    IsSequential (if c then (do let x ← MonadExcept.throw fault; rest x) else rest ()) := by
  split
  · exact nofun
  · exact h

/-! ### Numbers, strings and loops -/

theorem take (n : Nat) : IsSequential (Reader.take n) := by
  intro s a z hrun
  have hlength : a.length = n := Ensures.take n s a z hrun
  have htake : (if (s.take n).length = n then .ok (s.take n, s.drop n) else .error .truncated :
      Except ArchiveFault (Bytes × Bytes)) = .ok (a, z) := hrun
  split at htake
  · obtain ⟨rfl, rfl⟩ := Prod.mk.inj (Except.ok.inj htake)
    refine ⟨s.take n, (List.take_append_drop n s).symm, ?_, fun p hp hne ↦ ?_⟩
    · have hreads := Reads.take (s.take n)
      rwa [hlength] at hreads
    · -- what stops before has fewer bytes
      have hshort : p.length < n := by
        rw [← hlength]
        exact Nat.lt_of_le_of_ne hp.length_le fun heq ↦ hne (hp.eq_of_length heq)
      refine if_neg ?_
      rw [List.length_take]
      omega
  · cases htake

theorem number (width : Nat) : IsSequential (Reader.number width) :=
  (take width).map _

theorem word : IsSequential Reader.word :=
  (number 4).map _

theorem halfWord : IsSequential Reader.halfWord :=
  (number 2).map _

theorem longWord : IsSequential Reader.longWord :=
  (number 8).map _

theorem string : IsSequential Reader.string :=
  word.bind fun length ↦ refuse (take length.toNat)

theorem times {item : Reader α} (h : IsSequential item) :
    ∀ n, IsSequential (Reader.times item n)
  | 0 => .pure []
  | n + 1 => h.bind fun _ ↦ (times h n).bind fun _ ↦ .pure _

theorem list {item : Reader α} (h : IsSequential item) : IsSequential (Reader.list item) :=
  word.bind fun n ↦ times h n.toNat

theorem collect {step : σ → Reader σ} (h : ∀ acc, IsSequential (step acc)) :
    ∀ n acc, IsSequential (Reader.collect step n acc)
  | 0, _ => .pure _
  | n + 1, acc => (h acc).bind fun acc' ↦ collect h n acc'

/-! ### The parts of an archive -/

theorem header : IsSequential Reader.header :=
  word.bind fun _ ↦ halfWord.bind fun _ ↦ halfWord.bind fun _ ↦ word.bind fun _ ↦ word.bind fun _ ↦
    word.bind fun _ ↦ word.bind fun _ ↦ longWord.bind fun _ ↦ longWord.bind fun _ ↦ .pure _

theorem fieldLength : IsSequential Reader.fieldLength :=
  string.bind fun _ ↦ word.bind fun _ ↦ .pure _

theorem documentEntry : IsSequential Reader.documentEntry :=
  (list fieldLength).bind fun _ ↦ (list string).bind fun _ ↦ .pure _

theorem document (acc : Dict DocumentEntry × UInt64) : IsSequential (Reader.document acc) :=
  string.bind fun _ ↦ documentEntry.bind fun _ ↦ refuse (.pure _)

theorem fieldHits (frequency : UInt32) : IsSequential (Reader.fieldHits frequency) :=
  string.bind fun _ ↦ word.bind fun n ↦ refuse <| (times word n.toNat).bind fun _ ↦ .pure _

theorem posting : IsSequential Reader.posting :=
  string.bind fun _ ↦ word.bind fun frequency ↦ (list (fieldHits frequency)).bind fun _ ↦ .pure _

theorem term (terms : Dict Postings) : IsSequential (Reader.term terms) :=
  string.bind fun _ ↦ (list posting).bind fun _ ↦ refuse (.pure _)

/-- **The reader of an archive never looks ahead.** -/
theorem archive : IsSequential Reader.archive := by
  refine header.bind fun h ↦ refuse (refuse ?_)
  refine (collect document _ _).bind fun counted ↦ refuse ?_
  refine (collect term _ _).bind fun terms ↦ ?_
  dsimp only
  split
  · exact .pure _
  · exact .throw _

end IsSequential

variable {h : Header} {ix : Index} {p : Bytes}

/-- **Of what was written and is read again, no byte can be missing.** -/
theorem decode_eq_truncated (hread : decode (encode ix) = .ok (h, ix)) (hp : p <+: encode ix)
    (hne : p ≠ encode ix) : decode p = .error .truncated := by
  have hrun : Reader.archive.run (encode ix) = .ok ((header ix, ix), []) := by
    have hreads := (accepted_of_decode hread).reads []
    rwa [List.append_nil] at hreads
  obtain ⟨taken, htaken, -, hmisses⟩ := IsSequential.archive _ _ _ hrun
  rw [List.append_nil] at htaken
  rw [decode, hmisses p (htaken ▸ hp) (htaken ▸ hne)]
  rfl

end Archive

namespace Engine

/-- A file that is refused is the fault of its path, and leaves the engine as it is. -/
theorem after_load_of_decode_error {e : Engine} {st : Storage} {path content : Bytes}
    {fault : ArchiveFault} (hread : st.read path = .ok content)
    (herror : Archive.decode content = .error fault) :
    e.after (.load st path) = (e, some (.archive path fault)) := by
  have hload : st.load path = .error (.archive path fault) := by
    rw [Storage.load_of_read hread, herror]
  have hact : e.act (.load st path) = .error (.archive path fault) := by
    rw [act, load, hload]
    rfl
  rw [after, hact]

/-- **An archive that is cut off is refused.** Wherever a file stops within what was written for an
index that can be read again, be it after no byte at all, its bytes are found truncated, and an
engine that loads it from any path reports this and keeps its index. -/
theorem load_cut_off {h : Archive.Header} {ix : Index}
    (hread : Archive.decode (Archive.encode ix) = .ok (h, ix)) {p : Bytes}
    (hp : p <+: Archive.encode ix) (hne : p ≠ Archive.encode ix) :
    Archive.decode p = .error .truncated ∧ ∀ (e : Engine) (st : Storage) (path : Bytes),
      st.read path = .ok p → e.after (.load st path) = (e, some (.archive path .truncated)) := by
  have herror : Archive.decode p = .error .truncated := Archive.decode_eq_truncated hread hp hne
  exact ⟨herror, fun _ _ _ hcontent ↦ after_load_of_decode_error hcontent herror⟩

/-- An archive that stops between its documents and its terms. -/
theorem load_cut_off_before_terms :
    let p : Posting := ⟨utf8 "1", [⟨utf8 "title", [0]⟩], 1⟩
    let d : DocumentEntry := ⟨.ofList [(utf8 "title", 1)], [utf8 "hat"]⟩
    let ix : Index := ⟨.ofList [(utf8 "hat", [p])], .ofList [(utf8 "1", d)], 1, 7⟩
    let bytes := (Archive.header ix).encode ++ Archive.document (utf8 "1", d)
    let st : Storage := ⟨.ofList [(utf8 "index.tsx", bytes)], ∅⟩
    let e : Engine := ⟨{}, {}, .bm25 1.2 0.75, ⟨[]⟩, ix.publish⟩
    Archive.decode (Archive.encode ix) = .ok (Archive.header ix, ix) ∧ bytes <+: Archive.encode ix ∧
      bytes ≠ Archive.encode ix ∧ st.read (utf8 "index.tsx") = .ok bytes ∧
      Archive.decode bytes = .error .truncated ∧
      e.after (.load st (utf8 "index.tsx")) =
        (e, some (.archive (utf8 "index.tsx") .truncated)) := by
  intro p d ix bytes st e
  have hread : Archive.decode (Archive.encode ix) = .ok (Archive.header ix, ix) := by
    decide +kernel
  have hprefix : bytes <+: Archive.encode ix := ⟨Archive.term (utf8 "hat", [p]), by decide⟩
  have hne : bytes ≠ Archive.encode ix := by decide
  have hcontent : st.read (utf8 "index.tsx") = .ok bytes := by decide +kernel
  obtain ⟨herror, hload⟩ := load_cut_off hread hprefix hne
  exact ⟨hread, hprefix, hne, hcontent, herror, hload e st _ hcontent⟩

end Engine

end Concordance
