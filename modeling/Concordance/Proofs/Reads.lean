import Concordance.Archive.Reader
import Concordance.Archive.Writer
import Concordance.Proofs.Numbers

/-!
# Readers that read what was written

A reader reads a value from given bytes if it takes exactly these bytes from the front of the file,
whatever comes after them (`Reads`). This is kept by every way in which readers are put together:
one reader after another reads the bytes of both, and a loop reads the bytes of all its items. So
there is one lemma here for each combinator, and none of them looks at how long a file is.

A writer writes strings of any length, and a reader refuses those that are too long. What is written
is then read on a condition, and refused if it does not hold (`ReadsIf`); the condition of the whole
is put together like the reader.

For files that nobody wrote there is less to say: what a reader makes sure of before it accepts one
(`Ensures`).
-/

namespace Concordance.Archive

variable {α β σ : Type}

/-- The reader takes exactly the bytes `s` from the front of a file and makes `a` of them. -/
def Reads (r : Reader α) (s : Bytes) (a : α) : Prop :=
  ∀ z, r.run (s ++ z) = .ok (a, z)

namespace Reads

variable {r r' : Reader α} {s s' : Bytes} {a : α} {b : β}

/-! ### One reader after another -/

protected theorem pure (a : α) : Reads (pure a) [] a :=
  fun _ ↦ rfl

protected theorem bind {f : α → Reader β} (h : Reads r s a) (h' : Reads (f a) s' b) :
    Reads (r >>= f) (s ++ s') b := by
  intro z
  rw [StateT.run_bind, List.append_assoc, h]
  exact h' z

/-- What is made of what was read costs no further byte. -/
protected theorem map (f : α → β) (h : Reads r s a) : Reads (f <$> r) s (f a) := by
  intro z
  rw [StateT.run_map, h]
  rfl

theorem bind_pure (f : α → β) (h : Reads r s a) : Reads (r >>= fun a ↦ pure (f a)) s (f a) := by
  rw [← List.append_nil s]
  exact h.bind (.pure _)

/-- A rejection whose reason is absent. -/
theorem of_not {c : Prop} [Decidable c] (hc : ¬ c) (h : Reads r' s a) :
    Reads (if c then r else r') s a := by
  rw [if_neg hc]
  exact h

/-! ### Numbers -/

theorem take (s : Bytes) : Reads (Reader.take s.length) s s := by
  intro z
  have hfront : (s ++ z).take s.length = s := List.take_left
  have hback : (s ++ z).drop s.length = z := List.drop_left
  show (if ((s ++ z).take s.length).length = s.length then
    (.ok ((s ++ z).take s.length, (s ++ z).drop s.length) : Except ArchiveFault (Bytes × Bytes))
    else .error .truncated) = _
  rw [hfront, hback, if_pos rfl]

/-- The bytes of a number give it back as far as the width reaches. -/
theorem ofLittleEndian_littleEndian (width n : Nat) :
    ofLittleEndian (littleEndian width n) = n % 256 ^ width := by
  induction width generalizing n with
  | zero => rw [littleEndian, ofLittleEndian, Nat.pow_zero, Nat.mod_one]
  | succ width ih =>
    have hbyte : (n % 256).toUInt8.toNat = n % 256 := by
      rw [Nat.toUInt8, UInt8.toNat_ofNat', Nat.mod_mod]
    rw [littleEndian, ofLittleEndian, ih, hbyte, Nat.pow_succ', Nat.mod_mul]

theorem number (width : Nat) {n : Nat} (h : n < 256 ^ width) :
    Reads (Reader.number width) (littleEndian width n) n := by
  have hread := (take (littleEndian width n)).map ofLittleEndian
  rwa [length_littleEndian, ofLittleEndian_littleEndian, Nat.mod_eq_of_lt h] at hread

theorem word (n : UInt32) : Reads Reader.word (Archive.word n) n := by
  have hread := (number 4 n.toNat_lt).map Nat.toUInt32
  rwa [Nat.toUInt32, UInt32.ofNat_toNat] at hread

theorem halfWord (n : UInt16) : Reads Reader.halfWord (littleEndian 2 n.toNat) n := by
  have hread := (number 2 n.toNat_lt).map Nat.toUInt16
  rwa [Nat.toUInt16, UInt16.ofNat_toNat] at hread

theorem longWord (n : UInt64) : Reads Reader.longWord (littleEndian 8 n.toNat) n := by
  have hread := (number 8 n.toNat_lt).map Nat.toUInt64
  rwa [Nat.toUInt64, UInt64.ofNat_toNat] at hread

/-! ### Loops -/

theorem times {item : Reader α} {write : α → Bytes} {l : List α}
    (h : ∀ a ∈ l, Reads item (write a) a) :
    Reads (Reader.times item l.length) (l.flatMap write) l := by
  induction l with
  | nil => exact .pure []
  | cons a l ih =>
    obtain ⟨ha, hl⟩ := List.forall_mem_cons.1 h
    exact ha.bind ((ih hl).bind_pure (a :: ·))

end Reads

/-! ### Reading what may be too long -/

/-- Whether the bytes `s` are read depends on a condition, which is that no string in them is too
long. If it holds, the reader makes `a` of them; if not, it refuses the file for that reason,
whatever comes after them. -/
structure ReadsIf (c : Prop) (r : Reader α) (s : Bytes) (a : α) : Prop where
  reads : c → Reads r s a
  refuses : ¬ c → ∀ z, r.run (s ++ z) = .error .oversizedString

namespace ReadsIf

variable {c d : Prop} {r : Reader α} {s s' : Bytes} {a : α} {b : β}

theorem congr (h : ReadsIf c r s a) (hcd : c ↔ d) : ReadsIf d r s a :=
  ⟨fun hd ↦ h.reads (hcd.2 hd), fun hd ↦ h.refuses fun hc ↦ hd (hcd.1 hc)⟩

theorem of_reads (h : Reads r s a) : ReadsIf True r s a :=
  ⟨fun _ ↦ h, fun hfalse ↦ absurd trivial hfalse⟩

/-- **One reader after another.** The second one is only tried if the first one has read. -/
protected theorem bind {f : α → Reader β} (h : ReadsIf c r s a) (h' : c → ReadsIf d (f a) s' b) :
    ReadsIf (c ∧ d) (r >>= f) (s ++ s') b := by
  refine ⟨fun hcd ↦ (h.reads hcd.1).bind ((h' hcd.1).reads hcd.2), fun hcd z ↦ ?_⟩
  rw [StateT.run_bind, List.append_assoc]
  by_cases hc : c
  · rw [h.reads hc]
    exact (h' hc).refuses (fun hd ↦ hcd ⟨hc, hd⟩) z
  · rw [h.refuses hc]
    rfl

/-- The condition of what comes after something that is read in any case. -/
theorem after {f : α → Reader β} (h : Reads r s a) (h' : ReadsIf c (f a) s' b) :
    ReadsIf c (r >>= f) (s ++ s') b :=
  ((of_reads h).bind fun _ ↦ h').congr (iff_of_eq (true_and c))

/-- What is read in any case adds nothing to the condition. -/
theorem bind_reads {f : α → Reader β} (h : ReadsIf c r s a) (h' : Reads (f a) s' b) :
    ReadsIf c (r >>= f) (s ++ s') b :=
  (h.bind fun _ ↦ of_reads h').congr (iff_of_eq (and_true c))

theorem bind_pure (f : α → β) (h : ReadsIf c r s a) :
    ReadsIf c (r >>= fun a ↦ pure (f a)) s (f a) := by
  rw [← List.append_nil s]
  exact h.bind_reads (.pure _)

/-- A rejection whose reason is absent. -/
theorem of_not {p : Prop} [Decidable p] {r' : Reader α} (hp : ¬ p) (h : ReadsIf c r' s a) :
    ReadsIf c (if p then r else r') s a := by
  rw [if_neg hp]
  exact h

/-- **A string is read if it has at most the greatest length.** -/
theorem string (h : s.length < 2 ^ 32) :
    ReadsIf (s.length ≤ maxStringLength.toNat) Reader.string (Archive.string s) s := by
  have hlength : s.length.toUInt32.toNat = s.length := toNat_toUInt32_of_lt h
  have hlong : maxStringLength < s.length.toUInt32 ↔ ¬ s.length ≤ maxStringLength.toNat := by
    rw [UInt32.lt_iff_toNat_lt, hlength, Nat.not_le]
  refine .after (.word _) ⟨fun hfits ↦ ?_, fun hfits z ↦ ?_⟩
  · refine .of_not (fun hlt ↦ hlong.1 hlt hfits) ?_
    rw [hlength]
    exact .take s
  · rw [if_pos (hlong.2 hfits)]
    rfl

theorem times {item : Reader α} {write : α → Bytes} {c : α → Prop} {l : List α}
    (h : ∀ a ∈ l, ReadsIf (c a) item (write a) a) :
    ReadsIf (∀ a ∈ l, c a) (Reader.times item l.length) (l.flatMap write) l := by
  induction l with
  | nil => exact (of_reads (.pure [])).congr (iff_of_true trivial (List.forall_mem_nil c))
  | cons a l ih =>
    obtain ⟨ha, hl⟩ := List.forall_mem_cons.1 h
    exact (ha.bind fun _ ↦ (ih hl).bind_pure (a :: ·)).congr List.forall_mem_cons.symm

/-- **Items after their number, if the number fits.** -/
theorem list {item : Reader α} {write : α → Bytes} {c : α → Prop} {l : List α}
    (hsize : l.length < 2 ^ 32) (h : ∀ a ∈ l, ReadsIf (c a) item (write a) a) :
    ReadsIf (∀ a ∈ l, c a) (Reader.list item) (Archive.list write l) l := by
  refine .after (.word _) ?_
  rw [toNat_toUInt32_of_lt hsize]
  exact times h

/-- **What has been collected is known after every item**, so it is known after the last. -/
theorem collect {step : σ → Reader σ} {write : α → Bytes} {c : α → Prop} {l : List α}
    (collected : List α → σ)
    (h : ∀ before x after, l = before ++ x :: after →
      ReadsIf (c x) (step (collected before)) (write x) (collected (before ++ [x]))) :
    ReadsIf (∀ x ∈ l, c x) (Reader.collect step l.length (collected [])) (l.flatMap write)
      (collected l) := by
  -- the items that are left are the induction variable, those that are done are generalized
  have key : ∀ after before, l = before ++ after →
      ReadsIf (∀ x ∈ after, c x) (Reader.collect step after.length (collected before))
        (after.flatMap write) (collected l) := by
    intro after
    induction after with
    | nil =>
      intro before hl
      rw [hl, List.append_nil]
      exact (of_reads (.pure _)).congr (iff_of_true trivial (List.forall_mem_nil c))
    | cons x after ih =>
      intro before hl
      have hrest := ih (before ++ [x]) (by simp [hl])
      exact ((h before x after hl).bind fun _ ↦ hrest).congr List.forall_mem_cons.symm
  exact key l [] rfl

end ReadsIf

/-! ### What a reader makes sure of -/

/-- Whatever the reader makes of a file has a property. -/
def Ensures (r : Reader α) (p : α → Prop) : Prop :=
  ∀ s a z, r.run s = .ok (a, z) → p a

namespace Ensures

variable {p : α → Prop} {q : β → Prop}

protected theorem pure {a : α} (h : p a) : Ensures (pure a) p := by
  intro s a' z hrun
  rwa [← (Prod.mk.inj (Except.ok.inj hrun)).1]

theorem throw (fault : ArchiveFault) : Ensures (MonadExcept.throw fault) p :=
  nofun

/-- **The second of two readers relies on what the first one makes sure of.** -/
protected theorem bind {r : Reader α} {f : α → Reader β} (h : Ensures r p)
    (h' : ∀ a, p a → Ensures (f a) q) : Ensures (r >>= f) q := by
  intro s b z hrun
  rw [StateT.run_bind] at hrun
  rcases hr : r.run s with e | ⟨a, s'⟩
  · rw [hr] at hrun
    cases hrun
  · rw [hr] at hrun
    exact h' a (h s a s' hr) s' b z hrun

theorem mono {p' : α → Prop} {r : Reader α} (h : Ensures r p) (hp : ∀ a, p a → p' a) :
    Ensures r p' :=
  fun s a z hrun ↦ hp a (h s a z hrun)

protected theorem trivial (r : Reader α) : Ensures r fun _ ↦ True :=
  fun _ _ _ _ ↦ trivial

/-- What a reader makes sure of without looking at what was read before it. -/
theorem bind_of_forall {r : Reader α} {f : α → Reader β} (h : ∀ a, Ensures (f a) q) :
    Ensures (r >>= f) q :=
  (Ensures.trivial r).bind fun a _ ↦ h a

/-- What is made sure of where a file is not refused. -/
theorem refuse {c : Prop} [Decidable c] {fault : ArchiveFault} {rest : PUnit → Reader α}
    (h : ¬ c → Ensures (rest ()) p) :
    Ensures (if c then (do let x ← MonadExcept.throw fault; rest x) else rest ()) p := by
  split
  · exact nofun
  · rename_i hc
    exact h hc

/-! ### Strings and loops -/

theorem take (n : Nat) : Ensures (Reader.take n) fun s ↦ s.length = n := by
  intro s a z hrun
  have htake : (if (s.take n).length = n then .ok (s.take n, s.drop n) else .error .truncated :
      Except ArchiveFault (Bytes × Bytes)) = .ok (a, z) := hrun
  split at htake
  · rename_i hlength
    rw [← (Prod.mk.inj (Except.ok.inj htake)).1]
    exact hlength
  · cases htake

/-- **A string that is read has at most the greatest length.** -/
theorem string : Ensures Reader.string fun s ↦ s.length ≤ maxStringLength.toNat := by
  refine bind_of_forall fun length ↦ refuse fun hshort ↦ (take length.toNat).mono fun s hs ↦ ?_
  rw [hs, ← UInt32.le_iff_toNat_le]
  exact UInt32.not_lt.1 hshort

theorem times {item : Reader α} (h : Ensures item p) :
    ∀ n, Ensures (Reader.times item n) fun l ↦ l.length = n ∧ ∀ a ∈ l, p a
  | 0 => .pure ⟨rfl, List.forall_mem_nil p⟩
  | n + 1 => h.bind fun _ ha ↦ (times h n).bind fun _ hl ↦
    .pure ⟨congrArg (· + 1) hl.1, List.forall_mem_cons.2 ⟨ha, hl.2⟩⟩

theorem list {item : Reader α} (h : Ensures item p) :
    Ensures (Reader.list item) fun l ↦ l.length < 2 ^ 32 ∧ ∀ a ∈ l, p a :=
  bind_of_forall fun n ↦ (times h n.toNat).mono fun _ hl ↦ ⟨hl.1 ▸ n.toNat_lt, hl.2⟩

/-- **What every step makes sure of one step later holds after all steps.** -/
theorem collect {step : σ → Reader σ} {inv : Nat → σ → Prop}
    (h : ∀ k acc, inv k acc → Ensures (step acc) (inv (k + 1))) (n : Nat) {acc : σ}
    (hacc : inv 0 acc) : Ensures (Reader.collect step n acc) (inv n) := by
  -- the steps that are left are the induction variable, the number of those done is generalized
  have key : ∀ n k acc, inv k acc → Ensures (Reader.collect step n acc) (inv (k + n)) := by
    intro n
    induction n with
    | zero => exact fun k acc hacc ↦ .pure hacc
    | succ n ih =>
      intro k acc hacc
      rw [← Nat.add_assoc, Nat.add_right_comm]
      exact (h k acc hacc).bind fun acc' hacc' ↦ ih (k + 1) acc' hacc'
  have hall := key n 0 acc hacc
  rwa [Nat.zero_add] at hall

end Ensures

end Concordance.Archive
