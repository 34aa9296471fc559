import Concordance.Proofs.Passes
import Concordance.Query.Basic

/-!
# The nodes of a query and the negation rule

The negation rule speaks of every node of a query: a node with a negated operand is a conjunction,
and it has another operand that is not negated. The check goes down the tree and carries with it
whether it is in a conjunction. Both say the same of a tree without empty conjunctions
(`checkNegation_eq_ok_iff`), and such are all trees that are read.

Neither depends on the positions of the nodes, so trees are also compared here without them
(`unplaced`).
-/

namespace Concordance.Query

/-! ### Nodes -/

/-- The trees right below the root. -/
def operands : Query → List Query
  | neg _ operand => [operand]
  | conj _ qs | disj _ qs => qs
  | _ => []

/-- Whether a query is a conjunction. -/
def isConjunction : Query → Bool
  | conj _ _ => true
  | _ => false

/-- Operands are smaller than their node. -/
theorem sizeOf_lt_of_mem_operands {q t : Query} (h : q ∈ t.operands) : sizeOf q < sizeOf t := by
  cases t with
  | neg position operand =>
    rw [List.mem_singleton.1 h, neg.sizeOf_spec]
    omega
  | conj position qs =>
    have hlt : sizeOf q < sizeOf qs := List.sizeOf_lt_of_mem h
    rw [conj.sizeOf_spec]
    omega
  | disj position qs =>
    have hlt : sizeOf q < sizeOf qs := List.sizeOf_lt_of_mem h
    rw [disj.sizeOf_spec]
    omega
  | _ => exact absurd h List.not_mem_nil

/-- **What a tree inherits from its operands holds of every tree.** -/
theorem induct {motive : Query → Prop} (h : ∀ t, (∀ q ∈ t.operands, motive q) → motive t) :
    ∀ t, motive t := fun t ↦
  h t fun q hq ↦
    have := sizeOf_lt_of_mem_operands hq
    induct h q
termination_by t => sizeOf t

/-- The nodes of a tree: the tree itself, and the nodes of its operands. -/
inductive IsNode : Query → Query → Prop
  | root (t : Query) : IsNode t t
  | operand {node q t : Query} (hq : q ∈ t.operands) (h : IsNode node q) : IsNode node t

/-- A node of a part of a tree is one of the tree. -/
theorem IsNode.trans {node q t : Query} (h : IsNode node q) (h' : IsNode q t) : IsNode node t := by
  induction h' with
  | root => exact h
  | operand hq _ ih => exact .operand hq ih

/-- What holds of all nodes holds of the root and of all nodes below it. -/
theorem forall_isNode_iff {p : Query → Prop} {t : Query} : (∀ node, IsNode node t → p node) ↔
    p t ∧ ∀ q ∈ t.operands, ∀ node, IsNode node q → p node := by
  constructor
  · intro h
    exact ⟨h t (.root t), fun q hq node hnode ↦ h node (.operand hq hnode)⟩
  · intro h node hnode
    cases hnode with
    | root => exact h.1
    | operand hq hnode => exact h.2 _ hq node hnode

/-! ### The negation rule -/

/-- A node keeps company to its negated operands if it is a conjunction with an operand that is not
negated, or has no negated operand. -/
def Accompanies (node : Query) : Prop :=
  (∃ q ∈ node.operands, q.isNegation = true) →
    node.isConjunction = true ∧ ∃ q ∈ node.operands, q.isNegation = false

/-- **The negation rule.** Every negated clause is an operand of a conjunction that also has an
operand that is not negated: the root is no operand, and every node that has a negated operand is
such a conjunction. -/
structure KeepsNegationRule (t : Query) : Prop where
  root : t.isNegation = false
  nodes : ∀ node, IsNode node t → node.Accompanies

/-- A conjunction of something. -/
def HasOperands (node : Query) : Prop :=
  node.isConjunction = true → node.operands ≠ []

theorem accompanies_neg {position : Nat} {operand : Query} :
    (neg position operand).Accompanies ↔ operand.isNegation = false := by
  simp [Accompanies, operands, isConjunction]

/-- Alternatives must have no sign at all. -/
theorem accompanies_disj {position : Nat} {qs : List Query} :
    (disj position qs).Accompanies ↔ ∀ q ∈ qs, q.isNegation = false := by
  simp [Accompanies, operands, isConjunction]

/-- A conjunction that has operands needs one without a sign. -/
theorem accompanies_conj {position : Nat} {qs : List Query} (h : qs ≠ []) :
    (conj position qs).Accompanies ↔ qs.all isNegation = false := by
  rw [List.all_eq_false]
  constructor
  · intro hqs
    obtain ⟨q, hq⟩ := List.exists_mem_of_ne_nil qs h
    cases hneg : q.isNegation with
    | false => exact ⟨q, hq, Bool.eq_false_iff.1 hneg⟩
    | true =>
      obtain ⟨q', hq', hneg'⟩ := (hqs ⟨q, hq, hneg⟩).2
      exact ⟨q', hq', Bool.eq_false_iff.1 hneg'⟩
  · intro ⟨q, hq, hneg⟩ _
    exact ⟨rfl, q, hq, Bool.eq_false_iff.2 hneg⟩

/-- The negation rule for several queries is the one for each. -/
theorem checkNegations_eq_ok_iff {inConjunction : Bool} {qs : List Query} :
    checkNegations inConjunction qs = .ok () ↔
      ∀ q ∈ qs, q.checkNegation inConjunction = .ok () := by
  induction qs with
  | nil => simp [checkNegations]
  | cons q qs ih =>
    rw [checkNegations, List.forall_mem_cons, ← ih, Passes.check_bind_eq_ok_iff]

/-- Outside of a conjunction the negation rule leaves no clause with a sign. -/
theorem isNegation_of_checkNegation {q : Query} (h : q.checkNegation false = .ok ()) :
    q.isNegation = false := by
  cases q with
  | neg position operand =>
    rw [checkNegation] at h
    cases h
  | _ => rfl

/-- **The check of the negation rule**, which is told whether the tree is in a conjunction. -/
theorem checkNegation_eq_ok_iff {t : Query} (h : ∀ node, IsNode node t → node.HasOperands) :
    ∀ {inConjunction : Bool}, t.checkNegation inConjunction = .ok () ↔
      (t.isNegation = true → inConjunction = true) ∧
        ∀ node, IsNode node t → node.Accompanies := by
  induction t using induct with
  | h t ih =>
    intro inConjunction
    obtain ⟨hroot, hbelow⟩ := forall_isNode_iff.1 h
    have hoperands : ∀ q ∈ t.operands, ∀ {b : Bool}, q.checkNegation b = .ok () ↔
        (q.isNegation = true → b = true) ∧ ∀ node, IsNode node q → node.Accompanies :=
      fun q hq ↦ ih q hq (hbelow q hq)
    rw [forall_isNode_iff]
    cases t with
    | neg position operand =>
      have hoperand := hoperands operand (List.mem_singleton_self _) (b := false)
      rw [checkNegation, accompanies_neg]
      cases inConjunction with
      | false => simp [isNegation]
      | true =>
        rw [if_pos rfl, hoperand]
        simp [operands]
    | conj position qs =>
      -- here every operand may be negated but not all of them
      have hne : qs ≠ [] := hroot rfl
      have hqs : (∀ q ∈ qs, q.checkNegation true = .ok ()) ↔
          ∀ q ∈ qs, ∀ node, IsNode node q → node.Accompanies :=
        forall₂_congr fun q hq ↦ (hoperands q hq).trans (and_iff_right fun _ ↦ rfl)
      rw [checkNegation, accompanies_conj hne,
        show (conj position qs).operands = qs from rfl, ← hqs,
        ← checkNegations_eq_ok_iff]
      cases qs.all isNegation with
      | true => simp
      | false => simp [isNegation]
    | disj position qs =>
      -- here no operand may be
      have hqs : (∀ q ∈ qs, q.checkNegation false = .ok ()) ↔ ∀ q ∈ qs,
          (q.isNegation = true → false = true) ∧ ∀ node, IsNode node q → node.Accompanies :=
        forall₂_congr fun q hq ↦ hoperands q hq
      rw [checkNegation, accompanies_disj, checkNegations_eq_ok_iff, hqs]
      simp [operands, isNegation, forall_and]
    | _ => simp [checkNegation, isNegation, Accompanies, operands]

/-- For a tree on its own the check is the negation rule. -/
theorem checkNegation_false_iff {t : Query} (h : ∀ node, IsNode node t → node.HasOperands) :
    t.checkNegation false = .ok () ↔ t.KeepsNegationRule := by
  rw [checkNegation_eq_ok_iff h]
  constructor
  · intro ⟨hroot, hnodes⟩
    exact ⟨Bool.eq_false_iff.2 fun hneg ↦ absurd (hroot hneg) Bool.false_ne_true, hnodes⟩
  · intro hrule
    exact ⟨fun hneg ↦ hrule.root.symm.trans hneg, hrule.nodes⟩

/-- Several queries break the rule where one of them does. -/
theorem exists_checkNegation_error {inConjunction : Bool} {qs : List Query} {e : Error}
    (h : checkNegations inConjunction qs = .error e) :
    ∃ q ∈ qs, q.checkNegation inConjunction = .error e := by
  induction qs with
  | nil => cases h
  | cons q qs ih =>
    rw [checkNegations] at h
    rcases hq : q.checkNegation inConjunction with e' | u
    · rw [hq] at h
      exact ⟨q, List.mem_cons_self, hq.trans h⟩
    · rw [hq] at h
      obtain ⟨q', hq', herror⟩ := ih h
      exact ⟨q', List.mem_cons_of_mem q hq', herror⟩

/-- **Where a query breaks the rule**, it is one of its nodes that is at fault. -/
theorem checkNegation_fault (t : Query) : ∀ {inConjunction : Bool} {e : Error},
    t.checkNegation inConjunction = .error e →
      ∃ fault node, IsNode node t ∧ e = .query fault node.position := by
  induction t using induct with
  | h t ih =>
    intro inConjunction e h
    have hbelow : ∀ q ∈ t.operands, ∀ {inConjunction : Bool},
        q.checkNegation inConjunction = .error e →
          ∃ fault node, IsNode node t ∧ e = .query fault node.position := by
      intro q hq inConjunction herror
      obtain ⟨fault, node, hnode, he⟩ := ih q hq herror
      exact ⟨fault, node, .operand hq hnode, he⟩
    cases t with
    | neg position operand =>
      rw [checkNegation] at h
      split at h
      · exact hbelow operand (List.mem_singleton_self _) h
      · exact ⟨_, _, .root _, (Except.error.inj h).symm⟩
    | conj position qs =>
      rw [checkNegation] at h
      split at h
      · exact ⟨_, _, .root _, (Except.error.inj h).symm⟩
      · obtain ⟨q, hq, herror⟩ := exists_checkNegation_error h
        exact hbelow q hq herror
    | disj position qs =>
      rw [checkNegation] at h
      obtain ⟨q, hq, herror⟩ := exists_checkNegation_error h
      exact hbelow q hq herror
    | _ => cases h

/-! ### Trees without positions -/

mutual

/-- A tree without the positions of its nodes: each is set to `0`. -/
def unplaced : Query → Query
  | word _ text => word 0 text
  | wildcard _ start => wildcard 0 start
  | phrase _ text words => phrase 0 text words
  | neg _ operand => neg 0 operand.unplaced
  | conj _ operands => conj 0 (unplacedAll operands)
  | disj _ operands => disj 0 (unplacedAll operands)

/-- Trees without the positions of their nodes. -/
def unplacedAll : List Query → List Query
  | [] => []
  | q :: qs => q.unplaced :: unplacedAll qs

end

theorem unplacedAll_eq_map (qs : List Query) : unplacedAll qs = qs.map unplaced := by
  induction qs with
  | nil => rfl
  | cons q qs ih => rw [unplacedAll, ih, List.map_cons]

@[simp] theorem operands_unplaced (t : Query) : t.unplaced.operands = t.operands.map unplaced := by
  cases t <;> simp [unplaced, operands, unplacedAll_eq_map]

@[simp] theorem isNegation_unplaced (t : Query) : t.unplaced.isNegation = t.isNegation := by
  cases t <;> rfl

@[simp] theorem isConjunction_unplaced (t : Query) :
    t.unplaced.isConjunction = t.isConjunction := by
  cases t <;> rfl

/-- What does not depend on the position of a node holds of the nodes of a tree with positions and
without them. -/
theorem forall_isNode_unplaced {p : Query → Prop} (hp : ∀ node : Query, p node.unplaced ↔ p node)
    {t : Query} : (∀ node, IsNode node t.unplaced → p node) ↔ ∀ node, IsNode node t → p node := by
  induction t using induct with
  | h t ih =>
    rw [forall_isNode_iff, forall_isNode_iff, hp, operands_unplaced, List.forall_mem_map,
      forall₂_congr ih]

/-- **The rule does not look at positions.** -/
theorem keepsNegationRule_unplaced {t : Query} :
    t.unplaced.KeepsNegationRule ↔ t.KeepsNegationRule := by
  have hp : ∀ node : Query, node.unplaced.Accompanies ↔ node.Accompanies := by
    simp [Accompanies]
  constructor
  · intro h
    exact ⟨t.isNegation_unplaced ▸ h.root, (forall_isNode_unplaced hp).1 h.nodes⟩
  · intro h
    exact ⟨t.isNegation_unplaced.trans h.root, (forall_isNode_unplaced hp).2 h.nodes⟩

/-- Neither does it matter to them whether nodes have operands. -/
theorem hasOperands_unplaced {t : Query} : (∀ node, IsNode node t.unplaced → node.HasOperands) ↔
    ∀ node, IsNode node t → node.HasOperands :=
  forall_isNode_unplaced fun node ↦ by simp [HasOperands]

end Concordance.Query
