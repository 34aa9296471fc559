import Concordance.Engine.Keeper
import Concordance.Proofs.Storage
import Mathlib.Data.List.TakeWhile

/-!
# The path of a draft

An archive is written beside its path and moved there. The text of the path of the draft is longer
than that of the path, but it is places that matter. If a file can be moved to a path at all, the
path ends in a name of its own (`exists_lastName`), so the draft is a neighbour of the file in the
same directory, and never the file itself (`path_draft_ne`). Nothing can be written where a path has
no directory (`LacksDirectory.place?_append`).
-/

namespace Concordance

namespace Bytes

variable {separator : UInt8} {s t : Bytes}

theorem pieces_ne_nil (separator : UInt8) (s : Bytes) : pieces separator s ≠ [] := by
  cases s with
  | nil => exact List.cons_ne_nil _ _
  | cons b s =>
    rw [pieces]
    split
    · exact List.cons_ne_nil _ _
    · split <;> exact List.cons_ne_nil _ _

theorem pieces_separator (separator : UInt8) (s : Bytes) :
    pieces separator (separator :: s) = [] :: pieces separator s := by
  rw [pieces, if_pos rfl]

/-- A byte that does not separate belongs to the first piece. -/
theorem pieces_cons {b : UInt8} (hb : b ≠ separator) {piece : Bytes} {rest : List Bytes}
    (h : pieces separator s = piece :: rest) :
    pieces separator (b :: s) = (b :: piece) :: rest := by
  rw [pieces, if_neg hb, h]

theorem pieces_of_notMem (h : separator ∉ t) : pieces separator t = [t] := by
  induction t with
  | nil => rfl
  | cons b t ih =>
    exact pieces_cons (List.ne_of_not_mem_cons h).symm (ih (List.not_mem_of_not_mem_cons h))

/-- **A separator ends a piece.** -/
theorem pieces_append_separator (s t : Bytes) :
    pieces separator (s ++ separator :: t) = pieces separator s ++ pieces separator t := by
  induction s with
  | nil => exact pieces_separator separator t
  | cons b s ih =>
    by_cases hb : b = separator
    · subst hb
      rw [List.cons_append, pieces_separator, pieces_separator, ih, List.cons_append]
    · obtain ⟨piece, rest, hpieces⟩ := List.exists_cons_of_ne_nil (pieces_ne_nil separator s)
      rw [hpieces, List.cons_append] at ih
      rw [List.cons_append, pieces_cons hb ih, pieces_cons hb hpieces, List.cons_append]

/-- **Anything without a separator lengthens the last piece**, which is empty only at the very end
or behind a separator. -/
theorem exists_pieces (separator : UInt8) (s : Bytes) : ∃ before last,
    (last = [] → s = [] ∨ s.getLast? = some separator) ∧
      ∀ t, separator ∉ t → pieces separator (s ++ t) = before ++ [last ++ t] := by
  induction s with
  | nil => exact ⟨[], [], fun _ ↦ .inl rfl, fun t ↦ pieces_of_notMem⟩
  | cons b s ih =>
    obtain ⟨before, last, hlast, hpieces⟩ := ih
    by_cases hb : b = separator
    · subst hb
      refine ⟨[] :: before, last, fun hnil ↦ .inr ?_, fun t ht ↦ ?_⟩
      · rcases hlast hnil with rfl | hend
        · rfl
        · rw [List.getLast?_cons, hend, Option.getD_some]
      · rw [List.cons_append, pieces_separator, hpieces t ht, List.cons_append]
    · cases before with
      | nil => exact ⟨[], b :: last, nofun, fun t ht ↦ pieces_cons hb (hpieces t ht)⟩
      | cons piece before =>
        refine ⟨(b :: piece) :: before, last, fun hnil ↦ .inr ?_, fun t ht ↦
          pieces_cons hb (hpieces t ht)⟩
        rcases hlast hnil with rfl | hend
        · -- the empty text has one piece only
          have hone := hpieces [] List.not_mem_nil
          simp [pieces] at hone
        · rw [List.getLast?_cons, hend, Option.getD_some]

/-- The last of several texts is the end of what they are joined to. -/
theorem exists_joined (separator : Bytes) (l : List Bytes) :
    ∃ before, ∀ s, joined separator (l ++ [s]) = before ++ s := by
  induction l with
  | nil => exact ⟨[], fun _ ↦ rfl⟩
  | cons first l ih =>
    obtain ⟨before, hjoined⟩ := ih
    refine ⟨first ++ separator ++ before, fun s ↦ ?_⟩
    rw [List.append_assoc, ← hjoined s]
    cases l <;> rfl

end Bytes

namespace Place

variable {path : Bytes}

/-- A path without a zero byte counts in full. -/
theorem legible_eq (h : 0 ∉ path) : legible path = path :=
  List.takeWhile_eq_self_iff.2 fun _ hb ↦ bne_iff_ne.2 fun hzero ↦ h (hzero ▸ hb)

/-- What counts of a path with a slash in it. A zero byte before the slash ends it there. -/
theorem legible_append_slash (directory t : Bytes) :
    legible (directory ++ slash :: t) =
      if 0 ∈ directory then legible directory
      else directory ++ slash :: legible t := by
  induction directory with
  | nil => rfl
  | cons b directory ih =>
    by_cases hb : b = 0
    · subst hb
      rw [if_pos List.mem_cons_self]
      rfl
    · have hcons : ∀ s, legible (b :: s) = b :: legible s :=
        fun s ↦ List.takeWhile_cons_of_pos (bne_iff_ne.2 hb)
      simp only [List.cons_append, hcons, ih, List.mem_cons, Ne.symm hb, false_or]
      split <;> rfl

/-- A name that leads one step further: it is not empty, and not one of dots. -/
structure IsOwn (name : Bytes) : Prop where
  ne_nil : name ≠ []
  ne_here : name ≠ here
  ne_above : name ≠ above

/-- The names of dots are short. -/
theorem isOwn_append (name : Bytes) {ending : Bytes} (h : 2 < ending.length) :
    IsOwn (name ++ ending) := by
  have hlong : ∀ s : Bytes, s.length ≤ 2 → name ++ ending ≠ s := by
    rintro s hs rfl
    rw [List.length_append] at hs
    omega
  exact ⟨hlong _ (by decide), hlong _ (by decide), hlong _ (by decide)⟩

/-- A name of its own leads one level down. -/
theorem enter_of_isOwn (p : Place) {name : Bytes} (h : IsOwn name) :
    p.enter name = { p with names := name :: p.names } := by
  rw [enter, if_neg, if_neg h.ne_above]
  simp [h.ne_nil, h.ne_here]

/-- The path to a place ends in its name. -/
theorem path_enter (p : Place) : ∃ before, ∀ name, IsOwn name →
    (p.enter name).path = before ++ name := by
  obtain ⟨before, hjoined⟩ := Bytes.exists_joined [slash] p.names.reverse
  refine ⟨(if p.absolute then [slash] else []) ++ before, fun name hname ↦ ?_⟩
  rw [enter_of_isOwn p hname, Place.path, List.reverse_cons, hjoined, List.append_assoc]

end Place

namespace Storage

variable {st : Storage} {path : Bytes}

/-! ### Following names -/

/-- A path is followed one part after the other. -/
theorem follow?_append (st : Storage) (names more : List Bytes) : ∀ p,
    st.follow? p (names ++ more) = (st.follow? p names).bind fun q ↦ st.follow? q more := by
  induction names with
  | nil => exact fun p ↦ rfl
  | cons name names ih =>
    intro p
    rw [List.cons_append, follow?, follow?, ih]
    split <;> rfl

/-- The place that the last of several names leads to is one step from that of the others. -/
theorem enter_of_follow?_concat {p r : Place} {names : List Bytes} {name : Bytes}
    (h : st.follow? p (names ++ [name]) = some r) :
    ∃ q, st.follow? p names = some q ∧ q.enter name = r := by
  rw [follow?_append] at h
  obtain ⟨q, hq, hr⟩ := Option.bind_eq_some_iff.1 h
  refine ⟨q, hq, ?_⟩
  rw [follow?] at hr
  split at hr
  · exact Option.some.inj hr
  · cases hr

/-- **A path that a file can be moved to ends in a name of its own**, which gets longer with the
path. -/
theorem exists_lastName (hform : formFault? path = none) (hzero : 0 ∉ path) : ∃ before name,
    Place.IsOwn name ∧
      ∀ t, Place.slash ∉ t → Bytes.pieces Place.slash (path ++ t) = before ++ [name ++ t] := by
  obtain ⟨before, name, hlast, hpieces⟩ := Bytes.exists_pieces Place.slash path
  have hpath := hpieces [] List.not_mem_nil
  rw [List.append_nil, List.append_nil] at hpath
  simp only [formFault?, Place.legible_eq hzero, hpath] at hform
  split at hform
  · cases hform
  rename_i hpath'
  split at hform
  · cases hform
  rename_i found hfound
  split at hform
  · cases hform
  rename_i hnames
  have hend : path.getLast? ≠ some Place.slash := by
    intro hend
    rw [if_pos hend] at hform
    cases hform
  have hne : name ≠ [] := fun hnil ↦
    (hlast hnil).elim (fun hnone ↦ hpath' (List.isEmpty_iff.2 hnone)) hend
  -- so the last piece is the last name that is not empty
  have hfilter : [name].filter (!·.isEmpty) = [name] := by simpa using hne
  rw [List.filter_append, hfilter, List.getLast?_concat] at hfound
  obtain rfl := Option.some.inj hfound
  have hdots := not_or.1 hnames
  exact ⟨before, name, ⟨hne, hdots.1, hdots.2⟩, hpieces⟩

/-- A place is found by the names of a path. -/
theorem follow?_of_place? (hzero : 0 ∉ path) {p : Place} (h : st.place? path = some p) :
    path ≠ [] ∧ st.follow? (.start path) (Bytes.pieces Place.slash path) = some p := by
  simp only [place?, Place.legible_eq hzero] at h
  split at h
  · cases h
  · rename_i hpath
    refine ⟨?_, h⟩
    rintro rfl
    exact hpath rfl

/-- **A draft is never the file itself**, where it can be moved. -/
theorem path_draft_ne (hzero : 0 ∉ path) (hform : formFault? path = none) {old new : Place}
    (hold : st.place? (draftPath path) = some old) (hnew : st.place? path = some new) :
    old.path ≠ new.path := by
  obtain ⟨before, name, hname, hpieces⟩ := exists_lastName hform hzero
  have hzero' : 0 ∉ draftPath path :=
    fun hmem ↦ (List.mem_append.1 hmem).elim hzero (by decide : 0 ∉ utf8 ".tmp")
  obtain ⟨hpath, hnew⟩ := follow?_of_place? hzero hnew
  obtain ⟨-, hold⟩ := follow?_of_place? hzero' hold
  have hstart : Place.start (draftPath path) = .start path := by
    rw [Place.start, Place.start, draftPath, List.head?_append_of_ne_nil _ hpath]
  -- both paths lead to the same directory first
  rw [← List.append_nil path, hpieces [] List.not_mem_nil, List.append_nil, List.append_nil] at hnew
  rw [hstart, draftPath, hpieces _ (by decide)] at hold
  obtain ⟨q, hq, rfl⟩ := enter_of_follow?_concat hnew
  obtain ⟨q', hq', rfl⟩ := enter_of_follow?_concat hold
  obtain rfl := Option.some.inj (hq.symm.trans hq')
  obtain ⟨root, hroot⟩ := Place.path_enter q
  rw [hroot _ (Place.isOwn_append name (by decide)), hroot _ hname]
  intro heq
  exact absurd (List.append_right_eq_self.1 (List.append_cancel_left heq)) (by decide)

/-- What does not lead on by an empty name is no directory, so nothing leads on from it. -/
theorem follow?_eq_none_of_blank {p : Place} (h : st.follow? p [[]] = none) {names : List Bytes}
    (hne : names ≠ []) : st.follow? p names = none := by
  have hdirectory : st.isDirectory p = false := by
    rw [follow?, List.length_nil] at h
    simpa [follow?] using h
  obtain ⟨name, rest, rfl⟩ := List.exists_cons_of_ne_nil hne
  rw [follow?, hdirectory]
  rfl

/-- **Nothing is where there is no directory.** -/
theorem LacksDirectory.place?_append (h : st.LacksDirectory path) (t : Bytes) :
    st.place? (path ++ t) = none := by
  obtain ⟨directory, name, rfl, h⟩ := h
  rw [List.append_assoc, List.cons_append]
  simp only [place?, Place.legible_append_slash] at h ⊢
  by_cases hzero : 0 ∈ directory
  · rwa [if_pos hzero] at h ⊢
  · rw [if_neg hzero] at h ⊢
    have hstart : ∀ s, Place.start (directory ++ Place.slash :: s) =
        .start (directory ++ [Place.slash]) := by
      intro s
      cases directory <;> rfl
    split
    · rfl
    · rename_i hpath
      rw [if_neg] at h
      · rw [hstart, Bytes.pieces_append_separator, follow?_append] at h
        rw [hstart, Bytes.pieces_append_separator, follow?_append]
        rcases hplace : st.follow? (.start (directory ++ [Place.slash]))
          (Bytes.pieces Place.slash directory) with _ | p
        · rfl
        · rw [hplace] at h
          exact follow?_eq_none_of_blank h (Bytes.pieces_ne_nil _ _)
      · simp only [Bool.or_eq_true, List.isEmpty_iff, decide_eq_true_eq, not_or, not_lt] at hpath ⊢
        refine ⟨List.append_ne_nil_of_right_ne_nil _ (List.cons_ne_nil _ _), ?_⟩
        have hlength := hpath.2
        rw [List.length_append, List.length_cons] at hlength ⊢
        exact (Nat.add_le_add_left (Nat.succ_le_succ (Nat.zero_le _)) _).trans hlength

end Storage

end Concordance
