import Concordance.Proofs.ParserSoundness

/-!
# Every turn of a loop uses up the query

The two loops of the reader, over clauses and over alternatives, are written so that they go on only
while they use up the query. What is read is derived, and a derivation has bytes, so they always do:
a clause that is read has at least one byte (`length_lt_of_clause`), and the loops are those without
the question (`clauses_eq`, `alternatives_eq`).
-/

namespace Concordance.Query.Parser

variable {n : Nat} {s rest : Bytes} {q : Query}

/-- **A clause that is read has bytes.** -/
theorem length_lt_of_clause (h : clause n s = .ok (q, rest)) : rest.length < s.length := by
  have hyields := yields_clause n s
  rw [h] at hyields
  exact hyields.length_lt

/-- So has a conjunction. -/
theorem length_lt_of_conjunction (h : conjunction n s = .ok (q, rest)) :
    rest.length < s.length := by
  have hyields := yields_conjunction n s
  rw [h] at hyields
  obtain ⟨blank, -, hderived⟩ := hyields
  have hlt : (blank ++ rest).length < (Bytes.trimLeft s).length := hderived.length_lt
  have hle := Bytes.length_trimLeft_le s
  rw [List.length_append] at hlt
  omega

/-- What is left behind a bar is less than what began with it. -/
theorem length_lt_of_afterBar? {s t : Bytes} (h : afterBar? s = some t) : t.length < s.length := by
  obtain ⟨bar, hbar, rfl⟩ := exists_bar h
  rw [List.length_append]
  rcases hbar with rfl | rfl
  · exact Nat.lt_add_of_pos_left (by decide)
  · exact Nat.lt_add_of_pos_left (by decide)

/-- What comes after a bar is less than what the conjunction before it began with. -/
theorem length_lt_of_next {t : Bytes} (h : conjunction n s = .ok (q, rest))
    (hbar : afterBar? (Bytes.trimLeft rest) = some t) :
    (Bytes.trimLeft t).length < s.length := by
  have hlt := length_lt_of_conjunction h
  have hafter := length_lt_of_afterBar? hbar
  have hle := Bytes.length_trimLeft_le rest
  have hle' := Bytes.length_trimLeft_le t
  omega

/-- **The loop over clauses** reads one and goes on, until no clause can begin. -/
theorem clauses_eq (n : Nat) (s : Bytes) :
    clauses n s =
      if endsClause (Bytes.trimLeft s) then .ok ([], Bytes.trimLeft s)
      else do
        let (q, rest) ← clause n (Bytes.trimLeft s)
        let (qs, rest) ← clauses n rest
        return (q :: qs, rest) := by
  rw [clauses]
  dsimp only
  split
  · rfl
  · rcases hclause : clause n (Bytes.trimLeft s) with e | ⟨q, rest⟩
    · rfl
    · exact if_pos (length_lt_of_clause hclause)

/-- **The loop over alternatives** reads one and goes on behind the bar, until there is none. -/
theorem alternatives_eq (n : Nat) (s : Bytes) :
    alternatives n s = (do
      let (q, rest) ← conjunction n s
      match afterBar? (Bytes.trimLeft rest) with
      | none => return ([q], Bytes.trimLeft rest)
      | some t =>
        if endsClause (Bytes.trimLeft t) then
          fail .missingAlternative (offset n (Bytes.trimLeft t))
        else do
          let (qs, rest) ← alternatives n (Bytes.trimLeft t)
          return (q :: qs, rest)) := by
  rw [alternatives]
  rcases hconjunction : conjunction n s with e | ⟨q, rest⟩
  · rfl
  · rw [Passes.ok_bind, Passes.ok_bind]
    dsimp only
    rcases hbar : afterBar? (Bytes.trimLeft rest) with _ | t
    · rfl
    · dsimp only
      split
      · rfl
      · exact if_pos (length_lt_of_next hconjunction hbar)

end Concordance.Query.Parser
