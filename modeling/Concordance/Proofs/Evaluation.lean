import Concordance.Proofs.Conjunctions
import Concordance.Proofs.History
import Concordance.Proofs.PhraseMatches
import Concordance.Proofs.Ranking
import Concordance.Text.Table

/-!
# A search finds what satisfies the query

Evaluation follows the tree of a query, and so does the proof: the matches of a query are, in the
order of documents, those that satisfy it (`Finds`). A negated clause has no matches of its own. It
is found as what it negates, and where a conjunction takes that away, so the induction speaks of the
clause without its sign (`unnegated`). That a conjunction stops when nothing is left is no
exception: the empty list is the one of all documents that satisfy what can no longer be satisfied.

With the index of every history being that of its corpus, evaluation then depends on the documents
that are there and on nothing else (`evaluate_satisfied`).
-/

namespace Concordance

namespace Query

section Satisfied

variable {a : Analyzer} {syn : Synonyms} {o : SearchOptions} {fields : Dict Bytes}

theorem allSatisfied_iff {qs : List Query} :
    AllSatisfied a syn o fields qs ↔ ∀ q ∈ qs, q.Satisfied a syn o fields := by
  induction qs with
  | nil => simp [AllSatisfied]
  | cons q qs ih => rw [AllSatisfied, ih, List.forall_mem_cons]

theorem anySatisfied_iff {qs : List Query} :
    AnySatisfied a syn o fields qs ↔ ∃ q ∈ qs, q.Satisfied a syn o fields := by
  induction qs with
  | nil => simp [AnySatisfied]
  | cons q qs ih => rw [AnySatisfied, ih, List.exists_mem_cons_iff]

/-- Where a clause with a sign is satisfied. -/
theorem satisfied_of_isNegation {q : Query} (h : q.isNegation = true) :
    q.Satisfied a syn o fields ↔ ¬ q.unnegated.Satisfied a syn o fields := by
  cases q with
  | neg position operand => rfl
  | _ => cases h

end Satisfied

end Query

namespace Searcher

variable {s : Searcher} {o : SearchOptions} {c : Corpus}

/-- The matches of a query are the documents that satisfy it. -/
def Finds (s : Searcher) (o : SearchOptions) (c : Corpus) (q : Query) : Prop :=
  ∃ ms, s.matches? o q = .ok ms ∧ Matches.Lists ms
    (c.Where fun fields ↦ q.Satisfied s.analyzer s.synonyms o fields)

/-! ### Conjunctions -/

/-- Nothing more can be found where nothing is left. -/
theorem lists_nil_where {p q : Dict Bytes → Prop} (h : Matches.Lists [] (c.Where p))
    (hqp : ∀ fields, q fields → p fields) : Matches.Lists [] (c.Where q) := by
  refine Matches.lists_nil.congr fun id ↦ iff_of_false not_false fun ⟨fields, hfind, hq⟩ ↦ ?_
  exact List.not_mem_nil ((h.mem_iff id).2 ⟨fields, hfind, hqp fields hq⟩)

/-- **More operands narrow down what has been found** to what satisfies them as well. -/
theorem exists_narrow {qs : List Query} (hqs : ∀ q ∈ qs, s.Finds o c q.unnegated) :
    ∀ {ms : Matches} {p : Dict Bytes → Prop}, ms.Lists (c.Where p) →
      ∃ ms', qs.foldlM (s.narrow o) ms = .ok ms' ∧ Matches.Lists ms' (c.Where fun fields ↦
        p fields ∧ ∀ q ∈ qs, q.Satisfied s.analyzer s.synonyms o fields) := by
  induction qs with
  | nil =>
    intro ms p hms
    exact ⟨ms, rfl, hms.congr (Corpus.Where.congr fun fields ↦ by simp)⟩
  | cons q qs ih =>
    intro ms p hms
    obtain ⟨hq, hqs⟩ := List.forall_mem_cons.1 hqs
    simp only [List.forall_mem_cons]
    rcases eq_or_ne ms [] with rfl | hne
    · -- nothing is left, so no document satisfies all operands
      exact ⟨[], foldlM_narrow_nil _, lists_nil_where hms fun _ h ↦ h.1⟩
    · obtain ⟨found, hfound, hlists⟩ := hq
      simp only [List.foldlM_cons, narrow_of_ne_nil hne, hfound]
      rcases hneg : q.isNegation with _ | _
      · rw [Query.unnegated_of_isNegation hneg] at hlists
        obtain ⟨ms', hpass, hms'⟩ := ih hqs
          ((hms.intersect hlists).congr fun _ ↦ Corpus.where_and.symm)
        exact ⟨ms', hpass, hms'.congr (Corpus.Where.congr fun fields ↦ and_assoc)⟩
      · obtain ⟨ms', hpass, hms'⟩ := ih hqs
          ((hms.subtract hlists).congr fun _ ↦ Corpus.where_and_not.symm)
        refine ⟨ms', hpass, hms'.congr (Corpus.Where.congr fun fields ↦ ?_)⟩
        rw [Query.satisfied_of_isNegation hneg]
        exact and_assoc

/-! ### The tree -/

/-- A word finds what it stands for, or what has it as a phrase. -/
theorem finds_word (h : s.Serves o c) (position : Nat) (text : Bytes) :
    s.Finds o c (.word position text) := by
  rw [Finds, matches?_word h.notCancelled, matchWord]
  simp only [Query.Satisfied]
  rcases htokens : s.analyzer.analyze true text with _ | ⟨token, _ | ⟨token', tokens⟩⟩
  · exact ⟨[], rfl, Matches.lists_nil.congr fun _ ↦ iff_of_false not_false Corpus.not_where_false⟩
  · have hmem : token ∈ s.analyzer.analyze true text := htokens ▸ List.mem_singleton_self token
    exact h.lists_matchExpansion (Analyzer.isValid_of_mem_tokensFrom hmem)
  · exact h.lists_matchPhrase (token :: token' :: tokens)

/-- A wildcard that is a single word finds what begins with it. -/
theorem finds_wildcard (h : s.Serves o c) {position : Nat} {start : Bytes}
    (hstart : (s.analyzer.analyze false start).length ≤ 1) :
    s.Finds o c (.wildcard position start) := by
  rw [Finds, matches?_wildcard h.notCancelled, matchWildcard]
  simp only [Query.Satisfied]
  rcases htokens : s.analyzer.analyze false start with _ | ⟨token, _ | ⟨token', tokens⟩⟩
  · exact ⟨[], rfl, Matches.lists_nil.congr fun _ ↦ iff_of_false not_false Corpus.not_where_false⟩
  · exact h.lists_matchBeginning token.text
  · rw [htokens, List.length_cons, List.length_cons] at hstart
    omega

theorem finds_phrase (h : s.Serves o c) (position : Nat) (text : Bytes) (words : List Bytes) :
    s.Finds o c (.phrase position text words) := by
  rw [Finds, matches?_phrase h.notCancelled]
  simp only [Query.Satisfied]
  exact h.lists_matchPhrase _

/-- A conjunction with an operand without a sign finds what its operands leave. -/
theorem finds_conj (h : s.Serves o c) {position : Nat} {qs : List Query}
    (hqs : ∀ q ∈ qs, s.Finds o c q.unnegated) (hsome : ∃ q ∈ qs, q.isNegation = false) :
    s.Finds o c (.conj position qs) := by
  obtain ⟨q, rest, hturn, hsign⟩ := Query.exists_inTurn hsome
  have hmem : ∀ {q' : Query}, q' ∈ q :: rest ↔ q' ∈ qs := hturn ▸ Query.mem_inTurn
  have hq := hqs q (hmem.1 List.mem_cons_self)
  rw [Query.unnegated_of_isNegation hsign] at hq
  obtain ⟨first, hfirst, hlists⟩ := hq
  obtain ⟨ms, hms, hnarrow⟩ :=
    exists_narrow (fun q' hq' ↦ hqs q' (hmem.1 (List.mem_cons_of_mem q hq'))) hlists
  refine ⟨ms, ?_, hnarrow.congr (Corpus.Where.congr fun fields ↦ ?_)⟩
  · rw [matches?_conj h.notCancelled hturn hsign, hfirst]
    exact hms
  · rw [Query.Satisfied, Query.allSatisfied_iff, ← List.forall_mem_cons]
    exact forall_congr' fun q' ↦ imp_congr_left hmem

/-- An alternative finds what one of its operands finds. -/
theorem finds_disj (h : s.Serves o c) {position : Nat} {qs : List Query}
    (hqs : ∀ q ∈ qs, s.Finds o c q) : s.Finds o c (.disj position qs) := by
  obtain ⟨lists, hlists, hall⟩ := Passes.exists_mapM hqs
  refine ⟨.uniteAll lists, ?_, (Matches.Lists.uniteAll hall).congr fun id ↦ ?_⟩
  · rw [matches?_disj h.notCancelled, each_eq_mapM, hlists]
    rfl
  · rw [← Corpus.where_exists]
    exact Corpus.Where.congr (fun fields ↦ by rw [Query.Satisfied, Query.anySatisfied_iff]) id

mutual

/-- **A query that keeps the negation rule finds what satisfies it**, its sign left out. -/
theorem finds_unnegated (h : s.Serves o c) : ∀ (q : Query) (inConjunction : Bool),
    q.checkNegation inConjunction = .ok () → q.HasPlainWildcards s.analyzer →
      s.Finds o c q.unnegated
  | .word position text, _, _, _ => finds_word h position text
  | .wildcard _ _, _, _, hplain => finds_wildcard h hplain
  | .phrase position text words, _, _, _ => finds_phrase h position text words
  | .neg position operand, inConjunction, hrule, hplain => by
    rw [Query.checkNegation] at hrule
    split at hrule
    · have hfinds := finds_unnegated h operand false hrule hplain
      rwa [Query.unnegated_of_isNegation (Query.isNegation_of_checkNegation hrule)] at hfinds
    · cases hrule
  | .conj position operands, inConjunction, hrule, hplain => by
    rw [Query.checkNegation] at hrule
    split at hrule
    · cases hrule
    · rename_i hall
      have hsome : ∃ q ∈ operands, q.isNegation = false := by simpa using hall
      exact finds_conj h (finds_operands h operands true hrule hplain) hsome
  | .disj position operands, inConjunction, hrule, hplain => by
    rw [Query.checkNegation] at hrule
    refine finds_disj h fun q hq ↦ ?_
    have hfinds := finds_operands h operands false hrule hplain q hq
    have hq := Query.checkNegations_eq_ok_iff.1 hrule q hq
    rwa [Query.unnegated_of_isNegation (Query.isNegation_of_checkNegation hq)] at hfinds

/-- Each of several queries that keep the negation rule finds what satisfies it. -/
theorem finds_operands (h : s.Serves o c) : ∀ (qs : List Query) (inConjunction : Bool),
    Query.checkNegations inConjunction qs = .ok () → Query.AllHavePlainWildcards s.analyzer qs →
      ∀ q ∈ qs, s.Finds o c q.unnegated
  | [], _, _, _ => nofun
  | q :: qs, inConjunction, hrule, hplain => by
    obtain ⟨hq, hqs⟩ := List.forall_mem_cons.1 (Query.checkNegations_eq_ok_iff.1 hrule)
    exact List.forall_mem_cons.2 ⟨finds_unnegated h q inConjunction hq hplain.1,
      finds_operands h qs inConjunction (Query.checkNegations_eq_ok_iff.2 hqs) hplain.2⟩

end

/-- **The ranking of a query has each document that satisfies it once, and no other.** -/
theorem exists_evaluate (h : s.Serves o c) {q : Query} (hrule : q.checkNegation false = .ok ())
    (hplain : q.HasPlainWildcards s.analyzer) :
    ∃ ranking, s.evaluate o q = .ok ranking ∧ (ranking.map (·.doc)).Nodup ∧
      ∀ id, id ∈ ranking.map (·.doc) ↔
        c.Where (fun fields ↦ q.Satisfied s.analyzer s.synonyms o fields) id := by
  have hfinds := finds_unnegated h q false hrule hplain
  rw [Query.unnegated_of_isNegation (Query.isNegation_of_checkNegation hrule)] at hfinds
  obtain ⟨ms, hms, hlists⟩ := hfinds
  have hperm : (ms.ranked.map (·.doc)).Perm (ms.map (·.doc)) := ms.ranked_perm.map _
  refine ⟨ms.ranked, evaluate_of_ordered hrule hms hlists.ordered,
    hperm.nodup_iff.2 hlists.ordered.nodup, fun id ↦ ?_⟩
  rw [hperm.mem_iff]
  exact hlists.mem_iff id

end Searcher

end Concordance
