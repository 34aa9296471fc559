import Concordance.Engine.History
import Concordance.Proofs.Agreement
import Concordance.Proofs.Storage

/-!
# What a history of an engine keeps

An action changes the index or the synonyms of an engine, and nothing else. One that fails changes
nothing, so what can be said of an index after a history only has to be kept by the actions that
succeed: by documents that are put in and taken out (`isTidy_after_update`), and by an index that is
loaded, of which nothing is known but what the file guarantees. So the postings stay tidy through
any history in which every index that is loaded is in agreement (`isTidy_afterAll`).
-/

namespace Concordance

namespace Engine

variable {e e' : Engine} {batch : List Document} {id : Bytes} {members : ByteSet} {st : Storage}
  {path : Bytes} {P : Index → Prop} {admits : Document → Prop} {isFree : Bytes → Prop}

/-! ### One action -/

theorem ingest_eq_ok_iff : e.ingest batch = .ok e' ↔
    batch = [] ∧ e' = e ∨ batch ≠ [] ∧ ∃ index, e.index.add e.analyzer batch = .ok index ∧
      { e with index } = e' := by
  rcases batch with _ | ⟨d, batch⟩
  · have hnone : e.ingest [] = .ok e := rfl
    rw [hnone, Except.ok.injEq]
    exact ⟨fun h ↦ .inl ⟨rfl, h.symm⟩, fun h ↦ h.elim (·.2.symm) fun h ↦ absurd rfl h.1⟩
  · have hsome : e.ingest (d :: batch) =
        (fun index ↦ { e with index }) <$> e.index.add e.analyzer (d :: batch) := by
      rw [map_eq_pure_bind]
      rfl
    rw [hsome, Passes.map_eq_ok_iff]
    exact ⟨fun h ↦ .inr ⟨List.cons_ne_nil d batch, h⟩, fun h ↦ h.elim nofun (·.2)⟩

theorem remove_eq_ok_iff : e.remove id = .ok e' ↔
    ∃ index, e.index.change e.analyzer (.remove id) = .ok index ∧ { e with index } = e' := by
  have hremove : e.remove id =
      (fun index ↦ { e with index }) <$> e.index.change e.analyzer (.remove id) := by
    have hchange : e.index.change e.analyzer (.remove id) = do
        let ix ← e.index.remove id
        return ix.getD e.index := rfl
    rw [hchange, remove]
    rcases e.index.remove id with fault | found
    · rfl
    · cases found <;> rfl
  rw [hremove, Passes.map_eq_ok_iff]

theorem define_eq_ok_iff : e.define members = .ok e' ↔
    ∃ synonyms, defineClass e.analyzer e.synonyms members = .ok synonyms ∧
      { e with synonyms } = e' := by
  rw [← Passes.map_eq_ok_iff, map_eq_pure_bind]
  rfl

theorem load_eq_ok_iff : e.load st path = .ok e' ↔
    ∃ found, st.load path = .ok found ∧ { e with index := found.2 } = e' := by
  rw [← Passes.map_eq_ok_iff, map_eq_pure_bind]
  rfl

/-- **Whatever an action does, it does by succeeding.** What holds of an engine holds after an
action if it does whenever the action succeeds. -/
theorem after_of_act {action : Action} {P : Engine → Prop} (hP : P e)
    (hact : ∀ e', e.act action = .ok e' → P e') : P (e.after action).1 := by
  rw [after]
  rcases h : e.act action with fault | e'
  · exact hP
  · exact hact e' h

/-- No action changes how texts are analyzed. -/
theorem analyzer_after (e : Engine) (action : Action) :
    (e.after action).1.analyzer = e.analyzer := by
  refine after_of_act (P := fun e' ↦ e'.analyzer = e.analyzer) rfl fun e' hact ↦ ?_
  cases action with
  | ingest batch =>
    rcases ingest_eq_ok_iff.1 hact with ⟨-, rfl⟩ | ⟨-, index, -, rfl⟩
    · rfl
    · rfl
  | remove id =>
    obtain ⟨index, -, rfl⟩ := remove_eq_ok_iff.1 hact
    rfl
  | define members =>
    obtain ⟨synonyms, -, rfl⟩ := define_eq_ok_iff.1 hact
    rfl
  | load st path =>
    obtain ⟨found, -, rfl⟩ := load_eq_ok_iff.1 hact
    rfl

/-! ### Updates -/

/-- An action that puts in documents that are admitted, takes out one that is free, or has nothing
to do with documents. -/
def Action.Updates (admits : Document → Prop) (isFree : Bytes → Prop) : Action → Prop
  | ingest batch => ∀ d ∈ batch, admits d
  | remove id => isFree id
  | define _ => True
  | load _ _ => False

/-- **An update leaves the postings tidy**, and keeps what documents that are put in and taken out
keep. -/
theorem isTidy_after_update (hkept : Index.IsKept e.analyzer admits isFree P) {action : Action}
    (haction : action.Updates admits isFree) (htidy : e.index.IsTidy) (hP : P e.index) :
    (e.after action).1.index.IsTidy ∧ P (e.after action).1.index := by
  refine after_of_act (P := fun e ↦ e.index.IsTidy ∧ P e.index) ⟨htidy, hP⟩ fun e' hact ↦ ?_
  cases action with
  | ingest batch =>
    rcases ingest_eq_ok_iff.1 hact with ⟨-, rfl⟩ | ⟨-, index, hadd, rfl⟩
    · exact ⟨htidy, hP⟩
    · obtain ⟨index', hadd', hkept'⟩ :=
        htidy.exists_add hkept hP (Index.canBeAdded_of_add hadd) haction
      obtain rfl := Except.ok.inj (hadd'.symm.trans hadd)
      exact hkept'
  | remove id =>
    obtain ⟨index, hremove, rfl⟩ := remove_eq_ok_iff.1 hact
    obtain ⟨index', hremove', htidy', hP', -⟩ := htidy.exists_remove hkept hP id haction
    obtain rfl := Except.ok.inj (hremove'.symm.trans hremove)
    exact ⟨htidy', hP'⟩
  | define members =>
    obtain ⟨synonyms, -, rfl⟩ := define_eq_ok_iff.1 hact
    exact ⟨htidy, hP⟩
  | load st path => exact haction.elim

/-! ### Histories -/

/-- An engine keeps its settings and begins with an empty index. -/
theorem fresh_of_ofSettings [Orthography] {settings : Settings} (h : ofSettings settings = .ok e) :
    e.settings = settings ∧ e.index = .empty := by
  obtain ⟨analyzer, -, h⟩ := Passes.bind_eq_ok_iff.1 h
  obtain ⟨scorer, -, h⟩ := Passes.bind_eq_ok_iff.1 h
  obtain ⟨synonyms, -, h⟩ := Passes.bind_eq_ok_iff.1 h
  rw [← Except.ok.inj h]
  exact ⟨rfl, rfl⟩

/-- **What every action keeps is kept by a history.** -/
theorem inv_afterAll {P : Engine → Prop} {history : List Action}
    (h : ∀ action ∈ history, ∀ e, P e → P (e.after action).1) {e : Engine} (hP : P e) :
    P (e.afterAll history) := by
  induction history generalizing e with
  | nil => exact hP
  | cons action history ih =>
    obtain ⟨haction, hhistory⟩ := List.forall_mem_cons.1 h
    exact ih hhistory (haction e hP)

theorem analyzer_afterAll (e : Engine) (history : List Action) :
    (e.afterAll history).analyzer = e.analyzer :=
  inv_afterAll (P := fun e' ↦ e'.analyzer = e.analyzer)
    (fun action _ e' h ↦ (analyzer_after e' action).trans h) rfl

/-- **Updates, one after another.** -/
theorem isTidy_afterAll_updates {history : List Action}
    (hkept : Index.IsKept e.analyzer admits isFree P)
    (hhistory : ∀ action ∈ history, action.Updates admits isFree) (htidy : e.index.IsTidy)
    (hP : P e.index) : (e.afterAll history).index.IsTidy ∧ P (e.afterAll history).index := by
  have hstart : e.analyzer = e.analyzer ∧ e.index.IsTidy ∧ P e.index := ⟨rfl, htidy, hP⟩
  have hstep : ∀ action ∈ history, ∀ e' : Engine,
      e'.analyzer = e.analyzer ∧ e'.index.IsTidy ∧ P e'.index →
        (e'.after action).1.analyzer = e.analyzer ∧ (e'.after action).1.index.IsTidy ∧
          P (e'.after action).1.index := by
    intro action hmem e' ⟨ha, htidy, hP⟩
    exact ⟨(analyzer_after e' action).trans ha,
      isTidy_after_update (ha ▸ hkept) (hhistory action hmem) htidy hP⟩
  exact (inv_afterAll (P := fun e' ↦ e'.analyzer = e.analyzer ∧ e'.index.IsTidy ∧ P e'.index)
    hstep hstart).2

/-- An action that does not load an index whose documents and postings disagree. -/
def Action.LoadsAgreement : Action → Prop
  | load st path => ∀ header index, st.load path = .ok (header, index) → index.Agrees
  | _ => True

/-- Nothing in particular is kept by any update. -/
theorem isKept_true (a : Analyzer) :
    Index.IsKept a (fun _ ↦ True) (fun _ ↦ True) fun _ ↦ True :=
  ⟨fun _ _ ↦ trivial, fun _ _ _ _ _ _ _ ↦ trivial, fun _ _ _ _ _ _ ↦ trivial, fun _ _ ↦ trivial⟩

/-- **The postings stay tidy through any history** in which every index that is loaded is in
agreement. -/
theorem isTidy_afterAll {history : List Action}
    (hhistory : ∀ action ∈ history, action.LoadsAgreement)
    (htidy : e.index.IsTidy) : (e.afterAll history).index.IsTidy := by
  refine inv_afterAll (P := fun e ↦ e.index.IsTidy) (fun action hmem e htidy ↦ ?_) htidy
  have hloads := hhistory action hmem
  cases action with
  | load st path =>
    refine after_of_act (P := fun e ↦ e.index.IsTidy) htidy fun e' hact ↦ ?_
    obtain ⟨⟨header, index⟩, hload, rfl⟩ := load_eq_ok_iff.1 hact
    obtain ⟨content, -, hdecode⟩ := Storage.load_eq_ok_iff.1 hload
    exact (Archive.isSound_of_decode hdecode).isTidy (hloads header index hload)
  | ingest batch =>
    have hupdates : Action.Updates (fun _ ↦ True) (fun _ ↦ True) (.ingest batch) :=
      fun _ _ ↦ trivial
    exact (isTidy_after_update (isKept_true _) hupdates htidy trivial).1
  | remove id =>
    have hupdates : Action.Updates (fun _ ↦ True) (fun _ ↦ True) (.remove id) := trivial
    exact (isTidy_after_update (isKept_true _) hupdates htidy trivial).1
  | define members =>
    have hupdates : Action.Updates (fun _ ↦ True) (fun _ ↦ True) (.define members) := trivial
    exact (isTidy_after_update (isKept_true _) hupdates htidy trivial).1

end Engine

end Concordance
