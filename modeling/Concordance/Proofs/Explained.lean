import Concordance.Proofs.Conjunctions
import Concordance.Proofs.PhraseMatches

/-!
# What is explained of a document

Which terms a query has to name for which fields of a document is, like satisfaction, a matter of
the texts of the document, clause by clause (`Query.Explains`). A word names the terms that it
stands for, a wildcard those that begin with it, both where they occur in a field that counts; a
phrase names its terms for each field in which it occurs. A conjunction names what its operands do,
if all of them are satisfied, an alternative what any of its operands does, and a negated clause
nothing.

Occurrences are counted with words of 32 bits, and what comes to zero is as if it did not occur. So
satisfaction is said here of what counts (`Query.Answers`). In a document whose tokens can be
counted with 32 bits all that occurs counts (`Corpus.counts_iff`, `Corpus.countsPhrase_iff`).
-/

namespace Concordance

namespace Corpus

/-! ### What occurs in one field -/

section

variable (a : Analyzer) (o : SearchOptions) (fields : Dict Bytes)

/-- A term occurs in a field, and the field counts. -/
def HasIn (field term : Bytes) : Prop :=
  ∃ text, fields.find? field = some text ∧ o.admits field = true ∧
    ∃ token ∈ a.tokens text field, token.text = term

/-- A phrase occurs in a field, and the field counts. -/
def HasPhraseIn (field : Bytes) : List Token → Prop
  | [] => False
  | first :: others =>
    ∃ text, fields.find? field = some text ∧ o.admits field = true ∧
      ∃ token ∈ a.tokens text field, token.text = first.text ∧
        ∀ other ∈ others, ∃ token' ∈ a.tokens text field, token'.text = other.text ∧
          token'.position = token.position + (other.position - first.position)

end

variable {a : Analyzer} {o : SearchOptions} {fields : Dict Bytes} {field term : Bytes}
  {tokens : List Token}

/-- A term is in the document if it is in some field. -/
theorem has_iff_exists : Has a o fields term ↔ ∃ field, HasIn a o fields field term :=
  Iff.rfl

theorem hasPhrase_iff_exists :
    HasPhrase a o fields tokens ↔ ∃ field, HasPhraseIn a o fields field tokens := by
  cases tokens with
  | nil => exact ⟨False.elim, fun ⟨_, h⟩ ↦ h⟩
  | cons first others => exact Iff.rfl

end Corpus

/-! ### Clauses -/

/-- What a term of a query stands for: its synonyms, and if there is a distance, the terms of the
index near one of them. -/
def Searcher.StandsFor (s : Searcher) (o : SearchOptions) (term u : Bytes) : Prop :=
  u ∈ (s.synonyms.expand term).toList ∨ 0 < o.maxDistance ∧
    ∃ t ∈ (s.synonyms.expand term).toList, ∃ near,
      s.index.expandNear t o.maxDistance o.cancelled = .ok near ∧ u ∈ near.toList

namespace Query

section

variable (s : Searcher) (o : SearchOptions) (fields : Dict Bytes)

mutual

/-- **A document answers a query**: it satisfies it with what counts. -/
def Answers : Query → Prop
  | word _ text =>
    match s.analyzer.analyze true text with
    | [] => False
    | [token] => ∃ u, s.StandsFor o token.text u ∧ Corpus.Counts s.analyzer o fields u
    | tokens => Corpus.CountsPhrase s.analyzer o fields tokens
  | wildcard _ start =>
    match s.analyzer.analyze false start with
    | [] => False
    | token :: _ => ∃ u, token.text <+: u ∧ Corpus.Counts s.analyzer o fields u
  | phrase _ text _ => Corpus.CountsPhrase s.analyzer o fields (s.analyzer.analyze true text)
  | neg _ operand => ¬ operand.Answers
  | conj _ operands => AllAnswer operands
  | disj _ operands => AnyAnswers operands

/-- A document answers each of several queries. -/
def AllAnswer : List Query → Prop
  | [] => True
  | q :: qs => q.Answers ∧ AllAnswer qs

/-- A document answers one of several queries. -/
def AnyAnswers : List Query → Prop
  | [] => False
  | q :: qs => q.Answers ∨ AnyAnswers qs

end

variable (field term : Bytes)

/-- A phrase names its terms for each field in which it occurs. -/
def ExplainsPhrase (tokens : List Token) : Prop :=
  term ∈ tokens.map (·.text) ∧ Corpus.HasPhraseIn s.analyzer o fields field tokens ∧
    Corpus.CountsPhrase s.analyzer o fields tokens

mutual

/-- **A query names a term for a field of a document.** -/
def Explains : Query → Prop
  | word _ text =>
    match s.analyzer.analyze true text with
    | [] => False
    | [token] => s.StandsFor o token.text term ∧ Corpus.HasIn s.analyzer o fields field term ∧
      Corpus.Counts s.analyzer o fields term
    | tokens => ExplainsPhrase s o fields field term tokens
  | wildcard _ start =>
    match s.analyzer.analyze false start with
    | [] => False
    | token :: _ => token.text <+: term ∧ Corpus.HasIn s.analyzer o fields field term ∧
      Corpus.Counts s.analyzer o fields term
  | phrase _ text _ => ExplainsPhrase s o fields field term (s.analyzer.analyze true text)
  | neg _ _ => False
  | conj _ operands => AllAnswer s o fields operands ∧ AnyExplains operands
  | disj _ operands => AnyExplains operands

/-- One of several queries names a term for a field of a document. -/
def AnyExplains : List Query → Prop
  | [] => False
  | q :: qs => q.Explains ∨ AnyExplains qs

end

end

variable {s : Searcher} {o : SearchOptions} {fields : Dict Bytes} {field term : Bytes}

theorem allAnswer_iff {qs : List Query} :
    AllAnswer s o fields qs ↔ ∀ q ∈ qs, q.Answers s o fields := by
  induction qs with
  | nil => simp [AllAnswer]
  | cons q qs ih => rw [AllAnswer, ih, List.forall_mem_cons]

theorem anyAnswers_iff {qs : List Query} :
    AnyAnswers s o fields qs ↔ ∃ q ∈ qs, q.Answers s o fields := by
  induction qs with
  | nil => simp [AnyAnswers]
  | cons q qs ih => rw [AnyAnswers, ih, List.exists_mem_cons_iff]

theorem anyExplains_iff {qs : List Query} :
    AnyExplains s o fields field term qs ↔ ∃ q ∈ qs, q.Explains s o fields field term := by
  induction qs with
  | nil => simp [AnyExplains]
  | cons q qs ih => rw [AnyExplains, ih, List.exists_mem_cons_iff]

/-- A clause with a sign is answered where what it negates is not. -/
theorem answers_of_isNegation {q : Query} (h : q.isNegation = true) :
    q.Answers s o fields ↔ ¬ q.unnegated.Answers s o fields := by
  cases q with
  | neg position operand => rw [Answers]; rfl
  | _ => cases h

/-- It names nothing. -/
theorem not_explains_of_isNegation {q : Query} (h : q.isNegation = true) :
    ¬ q.Explains s o fields field term := by
  cases q with
  | neg position operand => rw [Explains]; exact not_false
  | _ => cases h

/-- **A query that is not answered names nothing.** -/
theorem Explains.answers {q : Query} (h : q.Explains s o fields field term) :
    q.Answers s o fields := by
  induction q using Query.induct with
  | h t ih =>
    cases t with
    | word position text =>
      rw [Explains] at h
      rw [Answers]
      split at h
      · exact h
      · exact ⟨term, h.1, h.2.2⟩
      · exact h.2.2
    | wildcard position start =>
      rw [Explains] at h
      rw [Answers]
      split at h
      · exact h
      · exact ⟨term, h.1, h.2.2⟩
    | phrase position text words =>
      rw [Explains] at h
      rw [Answers]
      exact h.2.2
    | neg position operand =>
      rw [Explains] at h
      exact h.elim
    | conj position qs =>
      rw [Explains] at h
      rw [Answers]
      exact h.1
    | disj position qs =>
      rw [Explains, anyExplains_iff] at h
      obtain ⟨q, hq, h⟩ := h
      rw [Answers, anyAnswers_iff]
      exact ⟨q, hq, ih q hq h⟩

end Query

end Concordance
