import Concordance.Proofs.Negation

/-!
# The negation check as one pass over the nodes

The check of the negation rule goes down the tree and carries along whether it is in a conjunction.
Here the nodes of a tree are listed in pre-order, each with the node that it is an operand of
(`occurrences`). What the rule asks of a node can be told from that alone (`Occurrence.Keeps`), and
the check is the pass over the list that stops at the first node that does not keep to it
(`checkNegation_eq_forM`). This is so for every tree, also where a conjunction or an alternative has
one operand or none.
-/

namespace Concordance.Query

/-! ### Nodes in pre-order -/

/-- A node where it stands in a tree: with the node that it is an operand of, if it is not the
root. -/
structure Occurrence where
  node : Query
  above : Option Query

mutual

/-- The nodes of a tree in pre-order: the root, and then those of its operands one after another. -/
def occurrences (above : Option Query) : Query → List Occurrence
  | neg position operand =>
    ⟨neg position operand, above⟩ :: operand.occurrences (some (neg position operand))
  | conj position operands =>
    ⟨conj position operands, above⟩ :: occurrencesAll (some (conj position operands)) operands
  | disj position operands =>
    ⟨disj position operands, above⟩ :: occurrencesAll (some (disj position operands)) operands
  | q => [⟨q, above⟩]

/-- The nodes of several trees, one tree after another. -/
def occurrencesAll (above : Option Query) : List Query → List Occurrence
  | [] => []
  | q :: qs => q.occurrences above ++ occurrencesAll above qs

end

theorem occurrencesAll_eq_flatMap (above : Option Query) (qs : List Query) :
    occurrencesAll above qs = qs.flatMap (occurrences above) := by
  induction qs with
  | nil => rfl
  | cons q qs ih => rw [occurrencesAll, ih, List.flatMap_cons]

/-- **The pre-order**: the root, and then the nodes of its operands. -/
theorem occurrences_eq (above : Option Query) (t : Query) :
    t.occurrences above = ⟨t, above⟩ :: t.operands.flatMap (occurrences (some t)) := by
  cases t <;> simp [occurrences, operands, occurrencesAll_eq_flatMap]

/-- **What is listed**: the root, and with each node its operands. -/
theorem mem_occurrences_iff {t : Query} : ∀ {above : Option Query} {x : Occurrence},
    x ∈ t.occurrences above ↔
      x = ⟨t, above⟩ ∨ ∃ node, IsNode node t ∧ ∃ q ∈ node.operands, x = ⟨q, some node⟩ := by
  induction t using induct with
  | h t ih =>
    intro above x
    rw [occurrences_eq, List.mem_cons, List.mem_flatMap]
    refine or_congr_right ⟨fun ⟨q, hq, hx⟩ ↦ ?_, fun ⟨node, hnode, q, hq, hx⟩ ↦ ?_⟩
    · rcases (ih q hq).1 hx with rfl | ⟨node, hnode, hbelow⟩
      · exact ⟨t, .root t, q, hq, rfl⟩
      · exact ⟨node, .operand hq hnode, hbelow⟩
    · cases hnode with
      | root => exact ⟨q, hq, (ih q hq).2 (.inl hx)⟩
      | operand hq' hnode => exact ⟨_, hq', (ih _ hq').2 (.inr ⟨node, hnode, q, hq, hx⟩)⟩

/-- They are nodes of the tree. -/
theorem isNode_of_mem_occurrences {t : Query} {above : Option Query} {x : Occurrence}
    (hx : x ∈ t.occurrences above) : IsNode x.node t := by
  rcases mem_occurrences_iff.1 hx with rfl | ⟨node, hnode, q, hq, rfl⟩
  · exact .root t
  · exact (IsNode.operand hq (.root q)).trans hnode

/-! ### What the rule asks of a node -/

namespace Occurrence

/-- A node keeps to the negation rule: if it is negated, it is an operand of a conjunction, and if
it is a conjunction, it has an operand that is not negated. -/
structure Keeps (x : Occurrence) : Prop where
  negation : x.node.isNegation = true → ∃ above ∈ x.above, above.isConjunction = true
  conjunction : x.node.isConjunction = true → ∃ q ∈ x.node.operands, q.isNegation = false

/-- The fault of a node that does not. -/
def fault? (x : Occurrence) : Option QueryFault :=
  match x.node with
  | .neg _ _ => if x.above.any isConjunction then none else some .loneNegation
  | .conj _ operands => if operands.all isNegation then some .onlyNegations else none
  | _ => none

/-- The negation rule for one node. -/
def check (x : Occurrence) : Except Error Unit :=
  match x.fault? with
  | none => .ok ()
  | some fault => .error (.query fault x.node.position)

theorem fault?_neg {position : Nat} {operand : Query} {above : Option Query} :
    fault? ⟨.neg position operand, above⟩ =
      if above.any isConjunction then none else some .loneNegation := rfl

theorem fault?_conj {position : Nat} {qs : List Query} {above : Option Query} :
    fault? ⟨.conj position qs, above⟩ =
      if qs.all isNegation then some .onlyNegations else none := rfl

/-- A node has no fault exactly if it keeps to the rule. -/
theorem fault?_eq_none_iff {x : Occurrence} : x.fault? = none ↔ x.Keeps := by
  obtain ⟨node, above⟩ := x
  cases node with
  | neg position operand =>
    rw [fault?_neg]
    constructor
    · intro h
      have hany : above.any isConjunction = true := by simpa using h
      exact ⟨fun _ ↦ (Option.any_eq_true ..).1 hany, nofun⟩
    · intro h
      rw [if_pos ((Option.any_eq_true ..).2 (h.negation rfl))]
  | conj position qs =>
    rw [fault?_conj]
    constructor
    · intro h
      have hall : ∃ q ∈ qs, q.isNegation = false := by simpa using h
      exact ⟨nofun, fun _ ↦ hall⟩
    · intro h
      have hall : ∃ q ∈ qs, q.isNegation = false := h.conjunction rfl
      rw [if_neg (by simpa using hall)]
  | _ => exact ⟨fun _ ↦ ⟨nofun, nofun⟩, fun _ ↦ rfl⟩

theorem check_eq_ok_iff {x : Occurrence} : x.check = .ok () ↔ x.Keeps := by
  rw [← fault?_eq_none_iff, check]
  cases x.fault? <;> simp

theorem check_eq_error_iff {x : Occurrence} {e : Error} :
    x.check = .error e ↔ ∃ fault, x.fault? = some fault ∧ e = .query fault x.node.position := by
  rw [check]
  cases x.fault? <;> simp [eq_comm]

end Occurrence

/-! ### The check -/

/-- The check of several trees is the pass over their nodes, if that of each is. -/
theorem checkNegations_eq_forM (above : Option Query) {qs : List Query}
    (h : ∀ q ∈ qs, q.checkNegation (above.any isConjunction) =
      (q.occurrences above).forM Occurrence.check) :
    checkNegations (above.any isConjunction) qs =
      (qs.flatMap (occurrences above)).forM Occurrence.check := by
  induction qs with
  | nil => rfl
  | cons q qs ih =>
    obtain ⟨hq, hqs⟩ := List.forall_mem_cons.1 h
    rw [checkNegations, hq, ih hqs, List.flatMap_cons]
    exact List.forM_append.symm

/-- **The negation check is the pass over the nodes in pre-order** that stops at the first one that
does not keep to the rule. -/
theorem checkNegation_eq_forM (t : Query) : ∀ above : Option Query,
    t.checkNegation (above.any isConjunction) = (t.occurrences above).forM Occurrence.check := by
  induction t using induct with
  | h t ih =>
    intro above
    have hoperands : checkNegations t.isConjunction t.operands =
        (t.operands.flatMap (occurrences (some t))).forM Occurrence.check :=
      checkNegations_eq_forM (some t) fun q hq ↦ ih q hq (some t)
    rw [occurrences_eq]
    show _ = (do
      Occurrence.check ⟨t, above⟩
      (t.operands.flatMap (occurrences (some t))).forM Occurrence.check)
    rw [← hoperands]
    cases t with
    | neg position operand =>
      rw [checkNegation, Occurrence.check, Occurrence.fault?_neg]
      cases above.any isConjunction with
      | false => rfl
      | true =>
        show operand.checkNegation false = (do operand.checkNegation false; .ok ())
        cases operand.checkNegation false <;> rfl
    | conj position qs =>
      rw [checkNegation, Occurrence.check, Occurrence.fault?_conj]
      cases qs.all isNegation <;> rfl
    | disj position qs => rw [checkNegation]; rfl
    | _ => rfl

/-- A conjunction further up does not help a negated clause that is an operand of something else. -/
example : checkNegation false
    (.conj 0 [.word 0 (utf8 "hat"), .disj 4 [.neg 5 (.word 6 (utf8 "cat"))]]) =
      .error (.query .loneNegation 5) := rfl

end Concordance.Query
