import Mathlib.Data.List.Basic
import Mathlib.Data.List.Forall2

/-!
# Passes that can fail

A pass over a list stops at the first element at which it fails. If it fails at none, its result is
the list of the results (`exists_mapM`, `mapM_eq_ok`), or what the last step leaves of an
invariant (`exists_foldlM`).
-/

namespace Concordance.Passes

variable {ε α β σ : Type}

/-- Related elements for each element are a related list. -/
theorem exists_forall₂ {r : α → β → Prop} {l : List α} (h : ∀ x ∈ l, ∃ y, r x y) :
    ∃ ys, List.Forall₂ r l ys := by
  induction l with
  | nil => exact ⟨[], .nil⟩
  | cons x l ih =>
    obtain ⟨⟨y, hy⟩, hl⟩ := List.forall_mem_cons.1 h
    obtain ⟨ys, hys⟩ := ih hl
    exact ⟨y :: ys, .cons hy hys⟩

/-- What holds of all that an element is related to holds of the elements of a related list. -/
theorem forall_mem_of_forall₂ {r : α → β → Prop} {p : β → Prop} {l : List α} {ys : List β}
    (h : List.Forall₂ r l ys) (hp : ∀ x y, r x y → p y) : ∀ y ∈ ys, p y := by
  induction h with
  | nil => exact List.forall_mem_nil p
  | cons hxy _ ih => exact List.forall_mem_cons.2 ⟨hp _ _ hxy, ih⟩

/-- An element of a list is related to one of a related list. -/
theorem exists_of_mem_forall₂ {r : α → β → Prop} {l : List α} {ys : List β}
    (h : List.Forall₂ r l ys) {x : α} (hx : x ∈ l) : ∃ y ∈ ys, r x y := by
  induction h with
  | nil => exact absurd hx List.not_mem_nil
  | @cons _ y _ ys hxy _ ih =>
    rcases List.mem_cons.1 hx with rfl | hx
    · exact ⟨y, List.mem_cons_self, hxy⟩
    · obtain ⟨z, hz, hxz⟩ := ih hx
      exact ⟨z, List.mem_cons_of_mem y hz, hxz⟩

/-- Lists that differ in one place are related if what stands there is. -/
theorem forall₂_replace {r : α → α → Prop} (hrefl : ∀ x, r x x) (before after : List α) {x y : α}
    (h : r x y) : List.Forall₂ r (before ++ x :: after) (before ++ y :: after) := by
  induction before with
  | nil => exact .cons h (List.forall₂_same.2 fun z _ ↦ hrefl z)
  | cons z before ih => exact .cons (hrefl z) ih

/-- Lists that are related are so at each place, beyond the end too if what stands for that is. -/
theorem forall₂_getD {r : α → β → Prop} {l : List α} {ys : List β} (h : List.Forall₂ r l ys) {x : α}
    {y : β} (hxy : r x y) (n : Nat) : r (l.getD n x) (ys.getD n y) := by
  induction h generalizing n with
  | nil => exact hxy
  | cons hhead _ ih =>
    cases n with
    | zero => exact hhead
    | succ n => exact ih n

/-- And so are their heads. -/
theorem forall₂_headD {r : α → β → Prop} {l : List α} {ys : List β}
    (h : List.Forall₂ r l ys) {x : α}
    {y : β} (hxy : r x y) : r (l.headD x) (ys.headD y) := by
  cases h with
  | nil => exact hxy
  | cons hhead _ => exact hhead

/-- **A pass that can succeed at every element succeeds, with related results.** -/
theorem exists_mapM {f : α → Except ε β} {r : α → β → Prop} {l : List α}
    (h : ∀ x ∈ l, ∃ y, f x = .ok y ∧ r x y) :
    ∃ ys, l.mapM f = .ok ys ∧ List.Forall₂ r l ys := by
  induction l with
  | nil => exact ⟨[], rfl, .nil⟩
  | cons x l ih =>
    obtain ⟨hx, hl⟩ := List.forall_mem_cons.1 h
    obtain ⟨y, hy, hxy⟩ := hx
    obtain ⟨ys, hys, hall⟩ := ih hl
    refine ⟨y :: ys, ?_, .cons hxy hall⟩
    rw [List.mapM_cons, hy, hys]
    rfl

/-- A step that succeeds hands on its result. -/
theorem ok_bind (a : α) (f : α → Except ε β) : (Except.ok a >>= f) = f a :=
  rfl

/-- Two steps succeed if the first one does and the second one does with its result. -/
theorem bind_eq_ok_iff {x : Except ε α} {f : α → Except ε β} {b : β} :
    (x >>= f) = .ok b ↔ ∃ a, x = .ok a ∧ f a = .ok b := by
  rcases x with e | a
  · exact ⟨nofun, fun ⟨_, h, _⟩ ↦ nomatch h⟩
  · exact ⟨fun h ↦ ⟨a, rfl, h⟩, fun ⟨_, h, hb⟩ ↦ by rw [← hb, ← Except.ok.inj h]; rfl⟩

/-- They fail if the first one does, or the second one with its result. -/
theorem bind_eq_error_iff {x : Except ε α} {f : α → Except ε β} {e : ε} :
    (x >>= f) = .error e ↔ x = .error e ∨ ∃ a, x = .ok a ∧ f a = .error e := by
  rcases x with e' | a
  · exact ⟨fun h ↦ .inl (congrArg _ (Except.error.inj h)), fun h ↦ h.elim
      (fun h ↦ congrArg _ (Except.error.inj h)) fun ⟨_, h, _⟩ ↦ nomatch h⟩
  · exact ⟨fun h ↦ .inr ⟨a, rfl, h⟩, fun h ↦ h.elim nofun
      fun ⟨_, h, he⟩ ↦ by rw [← he, ← Except.ok.inj h]; rfl⟩

/-- What is made of a result is there exactly if the result is. -/
theorem map_eq_ok_iff {f : α → β} {x : Except ε α} {b : β} :
    f <$> x = .ok b ↔ ∃ a, x = .ok a ∧ f a = b := by
  rw [map_eq_pure_bind, bind_eq_ok_iff]
  exact exists_congr fun a ↦ and_congr_right fun _ ↦ ⟨Except.ok.inj, congrArg Except.ok⟩

/-- A check that something comes after. -/
theorem check_bind_eq_ok_iff {x : Except ε PUnit} {f : PUnit → Except ε β} {b : β} :
    (x >>= f) = .ok b ↔ x = .ok () ∧ f () = .ok b := by
  rw [bind_eq_ok_iff]
  exact ⟨fun ⟨_, h⟩ ↦ h, fun h ↦ ⟨(), h⟩⟩

/-- A pass that only checks succeeds exactly if each check does. -/
theorem forM_eq_ok_iff {f : α → Except ε PUnit} {l : List α} :
    l.forM f = .ok () ↔ ∀ x ∈ l, f x = .ok () := by
  induction l with
  | nil => exact ⟨fun _ ↦ nofun, fun _ ↦ rfl⟩
  | cons x l ih =>
    show (f x >>= fun _ ↦ l.forM f) = .ok () ↔ _
    rw [check_bind_eq_ok_iff, List.forall_mem_cons, ih]

/-- It fails exactly if some check does after checks that succeed, and with the error of that
check. -/
theorem forM_eq_error_iff {f : α → Except ε PUnit} {l : List α} {e : ε} :
    l.forM f = .error e ↔ ∃ before x after, l = before ++ x :: after ∧
      (∀ y ∈ before, f y = .ok ()) ∧ f x = .error e := by
  constructor
  · intro h
    induction l with
    | nil => exact nomatch h
    | cons x l ih =>
      have hcons : (x :: l).forM f = (f x >>= fun _ ↦ l.forM f) := rfl
      rw [hcons] at h
      rcases hfx : f x with e' | u
      · rw [hfx] at h
        exact ⟨[], x, l, rfl, nofun, hfx.trans h⟩
      · rw [hfx] at h
        obtain ⟨before, y, after, rfl, hbefore, hfy⟩ := ih h
        exact ⟨x :: before, y, after, rfl, List.forall_mem_cons.2 ⟨hfx, hbefore⟩, hfy⟩
  · intro ⟨before, x, after, hl, hbefore, hfx⟩
    have hfirst : before.forM f = .ok () := forM_eq_ok_iff.2 hbefore
    calc l.forM f = (do before.forM f; (x :: after).forM f) := hl ▸ List.forM_append
      _ = (do f x; after.forM f) := by rw [hfirst]; rfl
      _ = .error e := by rw [hfx]; rfl

/-- A pass that keeps some results succeeds if it can at every element. -/
theorem exists_filterMapM {f : α → Except ε (Option β)} {r : α → Option β → Prop} {l : List α}
    (h : ∀ x ∈ l, ∃ y, f x = .ok y ∧ r x y) :
    ∃ ys, List.Forall₂ r l ys ∧ l.filterMapM f = .ok (ys.filterMap id) := by
  induction l with
  | nil => exact ⟨[], .nil, rfl⟩
  | cons x l ih =>
    obtain ⟨hx, hl⟩ := List.forall_mem_cons.1 h
    obtain ⟨y, hy, hxy⟩ := hx
    obtain ⟨ys, hall, hys⟩ := ih hl
    refine ⟨y :: ys, .cons hxy hall, ?_⟩
    rw [List.filterMapM_cons, hy]
    cases y with
    | none => exact hys
    | some y =>
      show (do
        let rest ← l.filterMapM f
        return y :: rest : Except ε (List β)) = _
      rw [hys]
      rfl

/-- What a pass that keeps some results has kept. -/
theorem mem_filterMapM_iff {f : α → Except ε (Option β)} {l : List α} {ys : List β}
    (h : l.filterMapM f = .ok ys) {y : β} : y ∈ ys ↔ ∃ x ∈ l, f x = .ok (some y) := by
  induction l generalizing ys with
  | nil =>
    rw [← Except.ok.inj h]
    simp
  | cons x l ih =>
    rw [List.filterMapM_cons, bind_eq_ok_iff] at h
    obtain ⟨y?, hx, h⟩ := h
    rw [List.exists_mem_cons_iff, hx]
    rcases y? with _ | z
    · rw [ih h]
      simp
    · obtain ⟨rest, hrest, h⟩ := bind_eq_ok_iff.1 h
      rw [← Except.ok.inj h, List.mem_cons, ih hrest]
      simp [eq_comm]

/-- A pass whose step never fails is a plain one. -/
theorem mapM_eq_ok {f : α → Except ε β} {g : α → β} {l : List α}
    (h : ∀ x ∈ l, f x = .ok (g x)) : l.mapM f = .ok (l.map g) := by
  induction l with
  | nil => rfl
  | cons x l ih =>
    obtain ⟨hx, hl⟩ := List.forall_mem_cons.1 h
    rw [List.mapM_cons, hx, ih hl]
    rfl

/-- **A pass fails exactly if some step does after steps that succeed**, and with the error of that
step. -/
theorem mapM_eq_error_iff {f : α → Except ε β} {l : List α} {e : ε} :
    l.mapM f = .error e ↔ ∃ before x after, l = before ++ x :: after ∧
      (∀ y ∈ before, ∃ z, f y = .ok z) ∧ f x = .error e := by
  induction l with
  | nil => exact ⟨nofun, fun ⟨_, _, _, h, _⟩ ↦ absurd h (by simp)⟩
  | cons x l ih =>
    rw [List.mapM_cons]
    rcases hfx : f x with e' | y
    · show Except.error e' = .error e ↔ _
      constructor
      · rintro ⟨⟩
        exact ⟨[], x, l, rfl, nofun, hfx⟩
      · rintro ⟨_ | ⟨x', before⟩, y, after, heq, hbefore, hfy⟩
        · obtain ⟨rfl, -⟩ := List.cons.inj heq
          exact congrArg Except.error (Except.error.inj (hfx.symm.trans hfy))
        · obtain ⟨rfl, -⟩ := List.cons.inj heq
          obtain ⟨z, hz⟩ := hbefore x List.mem_cons_self
          exact nomatch hfx.symm.trans hz
    · have hrest : (do return y :: (← l.mapM f) : Except ε (List β)) = .error e ↔
          l.mapM f = .error e := by
        rcases l.mapM f with e' | ys
        · rfl
        · exact ⟨nofun, nofun⟩
      refine hrest.trans (ih.trans ⟨?_, ?_⟩)
      · rintro ⟨before, x', after, rfl, hbefore, hfx'⟩
        exact ⟨x :: before, x', after, rfl, List.forall_mem_cons.2 ⟨⟨y, hfx⟩, hbefore⟩, hfx'⟩
      · rintro ⟨_ | ⟨x', before⟩, x'', after, heq, hbefore, hfx'⟩
        · obtain ⟨rfl, -⟩ := List.cons.inj heq
          exact nomatch hfx.symm.trans hfx'
        · obtain ⟨rfl, rfl⟩ := List.cons.inj heq
          exact ⟨before, x'', after, rfl, (List.forall_mem_cons.1 hbefore).2, hfx'⟩

/-- **A pass succeeds exactly if every step does**, with the list of the results. -/
theorem mapM_eq_ok_iff {f : α → Except ε β} {l : List α} {ys : List β} :
    l.mapM f = .ok ys ↔ List.Forall₂ (fun x y ↦ f x = .ok y) l ys := by
  induction l generalizing ys with
  | nil =>
    rw [List.mapM_nil, List.forall₂_nil_left_iff]
    exact ⟨fun h ↦ (Except.ok.inj h).symm, fun h ↦ h ▸ rfl⟩
  | cons x l ih =>
    rw [List.mapM_cons]
    constructor
    · intro h
      obtain ⟨y, hy, h⟩ := bind_eq_ok_iff.1 h
      obtain ⟨ys', hys, h⟩ := bind_eq_ok_iff.1 h
      rw [← Except.ok.inj h]
      exact .cons hy (ih.1 hys)
    · intro h
      obtain ⟨y, ys', hy, hys, rfl⟩ := List.forall₂_cons_left_iff.1 h
      rw [hy, ih.2 hys]
      rfl

/-- A pass over a state that fails does so at a step, from the state that the steps before it
leave. -/
theorem exists_of_foldlM_error {f : σ → α → Except ε σ} {l : List α} {s : σ} {e : ε}
    (h : l.foldlM f s = .error e) : ∃ before x after s', l = before ++ x :: after ∧
      before.foldlM f s = .ok s' ∧ f s' x = .error e := by
  induction l generalizing s with
  | nil => exact nomatch h
  | cons x l ih =>
    rw [List.foldlM_cons] at h
    rcases hfx : f s x with e' | s'
    · rw [hfx] at h
      exact ⟨[], x, l, s, rfl, rfl, hfx.trans h⟩
    · rw [hfx] at h
      obtain ⟨before, x', after, s'', rfl, hbefore, hx'⟩ := ih h
      refine ⟨x :: before, x', after, s'', rfl, ?_, hx'⟩
      rw [List.foldlM_cons, hfx]
      exact hbefore

/-- What each step of a pass keeps if it succeeds holds at its end, if the pass succeeds. -/
theorem inv_of_foldlM {f : σ → α → Except ε σ} {p : σ → Prop} {l : List α}
    (h : ∀ x ∈ l, ∀ s s', p s → f s x = .ok s' → p s') {s s' : σ} (hs : p s)
    (hfold : l.foldlM f s = .ok s') : p s' := by
  induction l generalizing s with
  | nil => exact Except.ok.inj hfold ▸ hs
  | cons x l ih =>
    obtain ⟨hx, hl⟩ := List.forall_mem_cons.1 h
    rw [List.foldlM_cons, bind_eq_ok_iff] at hfold
    obtain ⟨next, hnext, hfold⟩ := hfold
    exact ih hl (hx s next hs hnext) hfold

/-- What holds of the elements gone through and of the state, and is kept by each step that
succeeds, holds of all elements at the end of a pass that succeeds. -/
theorem inv_of_foldlM_done {f : σ → α → Except ε σ} (inv : List α → σ → Prop) {l : List α}
    (h : ∀ done x s s', inv done s → f s x = .ok s' → inv (done ++ [x]) s') {s s' : σ}
    (hs : inv [] s) (hfold : l.foldlM f s = .ok s') : inv l s' := by
  have key : ∀ l done s, inv done s → l.foldlM f s = .ok s' → inv (done ++ l) s' := by
    intro l
    induction l with
    | nil =>
      intro done s hs hfold
      rwa [List.append_nil, ← Except.ok.inj hfold]
    | cons x l ih =>
      intro done s hs hfold
      rw [List.foldlM_cons, bind_eq_ok_iff] at hfold
      obtain ⟨next, hnext, hfold⟩ := hfold
      simpa using ih (done ++ [x]) next (h done x s next hs hnext) hfold
  exact key l [] s hs hfold

/-- **What each step of a pass keeps holds at its end.** -/
theorem exists_foldlM {f : σ → α → Except ε σ} (inv : List α → σ → Prop) {l : List α}
    (h : ∀ before x after s, l = before ++ x :: after → inv before s →
      ∃ s', f s x = .ok s' ∧ inv (before ++ [x]) s') {s : σ} (hs : inv [] s) :
    ∃ s', l.foldlM f s = .ok s' ∧ inv l s' := by
  have key : ∀ after before s, l = before ++ after → inv before s →
      ∃ s', after.foldlM f s = .ok s' ∧ inv l s' := by
    intro after
    induction after with
    | nil =>
      intro before s hl hinv
      exact ⟨s, rfl, by simpa [hl] using hinv⟩
    | cons x after ih =>
      intro before s hl hinv
      obtain ⟨s', hfs, hinv'⟩ := h before x after s hl hinv
      obtain ⟨s'', hfold, hfinal⟩ := ih (before ++ [x]) s' (by simp [hl]) hinv'
      refine ⟨s'', ?_, hfinal⟩
      rw [List.foldlM_cons, hfs]
      exact hfold
  exact key l [] s rfl hs

/-- What each step of a pass that cannot fail keeps holds at its end. -/
theorem inv_foldl {f : σ → α → σ} (inv : List α → σ → Prop) {l : List α}
    (h : ∀ before x after s, l = before ++ x :: after → inv before s → inv (before ++ [x]) (f s x))
    {s : σ} (hs : inv [] s) : inv l (l.foldl f s) := by
  obtain ⟨s', hfold, hinv⟩ := exists_foldlM (f := fun s x ↦ (.ok (f s x) : Except Empty σ)) inv
    (fun before x after s hl hs ↦ ⟨f s x, rfl, h before x after s hl hs⟩) hs
  have hplain : l.foldlM (fun s x ↦ (.ok (f s x) : Except Empty σ)) s = .ok (l.foldl f s) :=
    List.foldlM_pure
  rw [Except.ok.inj (hplain.symm.trans hfold)]
  exact hinv

/-! ### How a pass fails -/

/-- A computation fails with nothing but errors of a kind. -/
def FailsOnly (p : ε → Prop) (x : Except ε α) : Prop :=
  ∀ e, x = .error e → p e

section FailsOnly

variable {p : ε → Prop}

theorem failsOnly_ok (a : α) : FailsOnly p (.ok a : Except ε α) := nofun

theorem failsOnly_error {e : ε} (h : p e) : FailsOnly p (.error e : Except ε α) :=
  fun _ he ↦ Except.error.inj he ▸ h

/-- Two steps fail as one of them does. -/
theorem FailsOnly.bind {x : Except ε α} {f : α → Except ε β} (hx : FailsOnly p x)
    (hf : ∀ a, x = .ok a → FailsOnly p (f a)) : FailsOnly p (x >>= f) := by
  cases x with
  | error e => exact failsOnly_error (hx e rfl)
  | ok a => exact hf a rfl

theorem FailsOnly.map {x : Except ε α} (hx : FailsOnly p x) (f : α → β) :
    FailsOnly p (f <$> x) := by
  cases x with
  | error e => exact failsOnly_error (hx e rfl)
  | ok a => exact failsOnly_ok (f a)

/-- A pass fails as one of its steps does. -/
theorem failsOnly_mapM {f : α → Except ε β} {l : List α} (h : ∀ x ∈ l, FailsOnly p (f x)) :
    FailsOnly p (l.mapM f) := by
  intro e he
  obtain ⟨before, x, after, rfl, -, hx⟩ := mapM_eq_error_iff.1 he
  exact h x (List.mem_append_right _ List.mem_cons_self) e hx

theorem failsOnly_foldlM {f : σ → α → Except ε σ} {l : List α}
    (h : ∀ x ∈ l, ∀ s, FailsOnly p (f s x)) (s : σ) : FailsOnly p (l.foldlM f s) := by
  intro e he
  obtain ⟨before, x, after, s', rfl, -, hx⟩ := exists_of_foldlM_error he
  exact h x (List.mem_append_right _ List.mem_cons_self) s' e hx

theorem failsOnly_filterMapM {f : α → Except ε (Option β)} {l : List α}
    (h : ∀ x ∈ l, FailsOnly p (f x)) : FailsOnly p (l.filterMapM f) := by
  induction l with
  | nil => exact failsOnly_ok []
  | cons x l ih =>
    obtain ⟨hx, hl⟩ := List.forall_mem_cons.1 h
    rw [List.filterMapM_cons]
    refine hx.bind fun y _ ↦ ?_
    cases y with
    | none => exact ih hl
    | some y => exact (ih hl).bind fun ys _ ↦ failsOnly_ok (y :: ys)

end FailsOnly

/-! ### Partial functions -/

/-- The pass of a partial function over a list has a result exactly if the function has one
everywhere, and then it is the list of the results. -/
theorem mapM_eq_some_iff {f : α → Option β} {l : List α} {ys : List β} :
    l.mapM f = some ys ↔ List.Forall₂ (fun x y ↦ f x = some y) l ys := by
  induction l generalizing ys with
  | nil =>
    rw [List.mapM_nil, List.forall₂_nil_left_iff]
    exact ⟨fun h ↦ (Option.some.inj h).symm, fun h ↦ h ▸ rfl⟩
  | cons x l ih =>
    rw [List.mapM_cons]
    constructor
    · intro h
      obtain ⟨y, hy, h⟩ := Option.bind_eq_some_iff.1 h
      obtain ⟨ys', hys, h⟩ := Option.bind_eq_some_iff.1 h
      rw [← Option.some.inj h]
      exact .cons hy (ih.1 hys)
    · intro h
      obtain ⟨y, ys', hy, hys, rfl⟩ := List.forall₂_cons_left_iff.1 h
      rw [hy, ih.2 hys]
      rfl

/-- It has none exactly if the function has none somewhere. -/
theorem mapM_eq_none_iff {f : α → Option β} {l : List α} :
    l.mapM f = none ↔ ∃ x ∈ l, f x = none := by
  induction l with
  | nil => simp
  | cons x l ih =>
    rw [List.mapM_cons, List.exists_mem_cons_iff, ← ih]
    cases f x with
    | none => simp
    | some y => cases l.mapM f <;> simp

theorem mapM_congr {f g : α → Option β} {l : List α}
    (h : ∀ x ∈ l, f x = g x) : l.mapM f = l.mapM g := by
  induction l with
  | nil => rfl
  | cons x l ih =>
    obtain ⟨hx, hl⟩ := List.forall_mem_cons.1 h
    rw [List.mapM_cons, List.mapM_cons, hx, ih hl]

/-- Refusing results one by one or all together. -/
theorem mapM_filter {g : α → Option β} {q : β → Bool} {l : List α} :
    (l.mapM fun x ↦ (g x).filter q) = (l.mapM g).filter (·.all q) := by
  refine Option.ext fun ys ↦ ?_
  simp only [Option.filter_eq_some_iff, mapM_eq_some_iff]
  constructor
  · intro h
    refine ⟨h.imp fun _ _ hxy ↦ hxy.1, ?_⟩
    induction h with
    | nil => rfl
    | cons hxy _ ih => rw [List.all_cons, hxy.2, ih, Bool.true_and]
  · rintro ⟨h, hall⟩
    induction h with
    | nil => exact .nil
    | cons hxy _ ih =>
      rw [List.all_cons, Bool.and_eq_true] at hall
      exact .cons ⟨hxy, hall.1⟩ (ih hall.2)

end Concordance.Passes
