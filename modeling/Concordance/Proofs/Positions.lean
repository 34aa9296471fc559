import Concordance.Proofs.FaultPositions
import Concordance.Proofs.Faults

/-!
# Positions lie in the query

A fault names an offset in the query, so that one can point at it. All offsets lie in the query, the
end included: those that the reader gives to the nodes of a tree and those where it stops
(`within_parse`), and so those of the faults that an evaluation meets, because they are at nodes
(`Searcher.Meets.isWithin`).

The reader takes an offset from what is left of the query, for the nodes of a tree (`Parser.Laid`)
as for a fault (`Error.PointsInto`), so none lies beyond the end.
-/

namespace Concordance

namespace Query

/-- All nodes of a tree lie in a text of the given length. -/
def IsWithin (n : Nat) (t : Query) : Prop :=
  ∀ node, IsNode node t → node.position ≤ n

theorem isWithin_iff {n : Nat} {t : Query} :
    t.IsWithin n ↔ t.position ≤ n ∧ ∀ q ∈ t.operands, q.IsWithin n :=
  forall_isNode_iff

theorem IsWithin.unnegated {n : Nat} {t : Query} (h : t.IsWithin n) : t.unnegated.IsWithin n := by
  cases t with
  | neg position operand => exact (isWithin_iff.1 h).2 operand (List.mem_singleton_self _)
  | _ => exact h

/-- **All positions lie in the query**: those of a tree that is read, and that of the fault of a
text from which none is read. -/
theorem within_parse (text : Bytes) :
    (∃ t, parse text = .ok t ∧ t.checkNegation false = .ok () ∧ t.IsWithin text.length) ∨
      ∃ fault position, parse text = .error (.query fault position) ∧ position ≤ text.length := by
  rcases hparse : parse text with e | t
  · obtain ⟨fault, s, -, rfl, -⟩ := pointsInto_of_parse hparse
    exact .inr ⟨fault, _, rfl, Nat.sub_le ..⟩
  · obtain ⟨-, -, -, hrule⟩ := exists_rest_of_parse hparse
    refine .inl ⟨t, rfl, hrule, fun node hnode ↦ ?_⟩
    obtain ⟨s, -, hbegins⟩ := (laid_of_parse hparse).nodes node hnode
    rw [hbegins.position]
    exact Nat.sub_le ..

end Query

/-- **A fault that an evaluation meets is at a node of the query.** -/
theorem Searcher.Meets.isWithin {s : Searcher} {o : SearchOptions} {q : Query} {fault : QueryFault}
    {position n : Nat} (h : s.Meets o q fault position) : q.IsWithin n → position ≤ n := by
  induction h with
  | wildcard => exact fun hq ↦ (Query.isWithin_iff.1 hq).1
  | neg => exact fun hq ↦ (Query.isWithin_iff.1 hq).1
  | signs => exact fun hq ↦ (Query.isWithin_iff.1 hq).1
  | @conj position k qs before after q' fault _ hturn _ _ ih =>
    have hmem : q' ∈ qs := Query.mem_inTurn.1 (hturn ▸ List.mem_append_right _ List.mem_cons_self)
    exact fun hq ↦ ih ((Query.isWithin_iff.1 hq).2 q' hmem).unnegated
  | disj hmem _ ih => exact fun hq ↦ ih ((Query.isWithin_iff.1 hq).2 _ hmem)

end Concordance
