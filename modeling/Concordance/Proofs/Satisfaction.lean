import Concordance.Proofs.EditDistance
import Concordance.Proofs.Tokens
import Concordance.Query.Basic
import Concordance.Search.Basic

/-!
# What a query asks of a document

Whether a document satisfies a query is a matter of its own texts: of the tokens that stand in the
fields that count, and of nothing else. No index, no score and no other document comes into it. A
negated clause is satisfied where its operand is not, a conjunction where all its operands are, and
an alternative where one of them is.

A word asks for a term that is near one that it may stand for, if it is analyzed to one token; if
there are several, they are a phrase. The tokens of a phrase have to stand in one field at the
distances at which they stand in the phrase. Positions are counted with 32 bits, here as there.
-/

namespace Concordance

namespace Corpus

variable (a : Analyzer) (syn : Synonyms) (o : SearchOptions) (fields : Dict Bytes)

/-- A term occurs in a field that counts. -/
def Has (term : Bytes) : Prop :=
  ∃ field text, fields.find? field = some text ∧ o.admits field = true ∧
    ∃ token ∈ a.tokens text field, token.text = term

/-- Some term occurs that is within the distance of one for which the given term may stand. -/
def HasNear (term : Bytes) : Prop :=
  ∃ t ∈ (syn.expand term).toList, ∃ u, Has a o fields u ∧
    (EditDistance.distance (Utf8.decodeLossy t) (Utf8.decodeLossy u) : Int) ≤ o.maxDistance.toInt

/-- Some term occurs that begins with the given bytes. -/
def HasBeginning (start : Bytes) : Prop :=
  ∃ u, Has a o fields u ∧ start <+: u

/-- Tokens occur in one field that counts at the distances that they have from the first. -/
def HasPhrase : List Token → Prop
  | [] => False
  | first :: others =>
    ∃ field text, fields.find? field = some text ∧ o.admits field = true ∧
      ∃ token ∈ a.tokens text field, token.text = first.text ∧
        ∀ other ∈ others, ∃ token' ∈ a.tokens text field, token'.text = other.text ∧
          token'.position = token.position + (other.position - first.position)

/-- How often a phrase occurs among the tokens of a field: at how many positions of its first token
the others stand at their distances from it. -/
def phraseCountIn (tokens : List Token) (first : Token) (others : List Token) : Nat :=
  (positions first.text tokens).countP fun n ↦
    others.all fun t ↦ (positions t.text tokens).contains (n + (t.position - first.position))

/-- How often tokens occur as a phrase in the fields that count. -/
def phraseCount : List Token → Nat
  | [] => 0
  | first :: others =>
    (((fieldTokens a fields).filter fun f ↦ o.admits f.1).map fun f ↦
      phraseCountIn f.2 first others).sum

/-- How often a term occurs in the fields that count. -/
def count (term : Bytes) : Nat :=
  (((fieldTokens a fields).filter fun f ↦ o.admits f.1).map fun f ↦
    (positions term f.2).length).sum

/-- The occurrences of a term do not come to zero as a word of 32 bits. -/
def Counts (term : Bytes) : Prop :=
  ¬ 2 ^ 32 ∣ count a o fields term

/-- Nor do those of a phrase. -/
def CountsPhrase (tokens : List Token) : Prop :=
  ¬ 2 ^ 32 ∣ phraseCount a o fields tokens

/-- The documents with a property. -/
def Where (c : Corpus) (p : Dict Bytes → Prop) (id : Bytes) : Prop :=
  ∃ fields, c.find? id = some fields ∧ p fields

end Corpus

namespace Query

/-! ### Satisfaction -/

section Satisfied

variable (a : Analyzer) (syn : Synonyms) (o : SearchOptions) (fields : Dict Bytes)

mutual

/-- **A document satisfies a query.** -/
def Satisfied : Query → Prop
  | word _ text =>
    match a.analyze true text with
    | [] => False
    | [token] => Corpus.HasNear a syn o fields token.text
    | tokens => Corpus.HasPhrase a o fields tokens
  | wildcard _ start =>
    match a.analyze false start with
    | [] => False
    | token :: _ => Corpus.HasBeginning a o fields token.text
  | phrase _ text _ => Corpus.HasPhrase a o fields (a.analyze true text)
  | neg _ operand => ¬ operand.Satisfied
  | conj _ operands => AllSatisfied operands
  | disj _ operands => AnySatisfied operands

/-- A document satisfies each of several queries. -/
def AllSatisfied : List Query → Prop
  | [] => True
  | q :: qs => q.Satisfied ∧ AllSatisfied qs

/-- A document satisfies one of several queries. -/
def AnySatisfied : List Query → Prop
  | [] => False
  | q :: qs => q.Satisfied ∨ AnySatisfied qs

end

end Satisfied

/-! ### Wildcards -/

mutual

/-- Every wildcard of a query is a single word, or none: only its own word has the star. -/
def HasPlainWildcards (a : Analyzer) : Query → Prop
  | wildcard _ start => (a.analyze false start).length ≤ 1
  | neg _ operand => operand.HasPlainWildcards a
  | conj _ operands | disj _ operands => AllHavePlainWildcards a operands
  | _ => True

/-- Every wildcard of several queries is a single word, or none. -/
def AllHavePlainWildcards (a : Analyzer) : List Query → Prop
  | [] => True
  | q :: qs => q.HasPlainWildcards a ∧ AllHavePlainWildcards a qs

end

end Query

/-! ### Documents with a property -/

namespace Corpus

variable {c : Corpus} {p q : Dict Bytes → Prop} {id : Bytes}

/-- Of a document that is there it is said of its fields. -/
theorem where_iff {fields : Dict Bytes} (h : c.find? id = some fields) : c.Where p id ↔ p fields :=
  ⟨fun ⟨_, hfind, hp⟩ ↦ Option.some.inj (h.symm.trans hfind) ▸ hp, fun hp ↦ ⟨fields, h, hp⟩⟩

theorem Where.congr (h : ∀ fields, p fields ↔ q fields) (id : Bytes) :
    c.Where p id ↔ c.Where q id :=
  exists_congr fun fields ↦ and_congr_right fun _ ↦ h fields

/-- **What is said of documents can be taken apart.** -/
theorem where_and : c.Where (fun f ↦ p f ∧ q f) id ↔ c.Where p id ∧ c.Where q id := by
  constructor
  · rintro ⟨fields, hfind, hp, hq⟩
    exact ⟨⟨fields, hfind, hp⟩, fields, hfind, hq⟩
  · rintro ⟨⟨fields, hfind, hp⟩, hq⟩
    exact ⟨fields, hfind, hp, (where_iff hfind).1 hq⟩

theorem where_and_not : c.Where (fun f ↦ p f ∧ ¬ q f) id ↔ c.Where p id ∧ ¬ c.Where q id := by
  constructor
  · rintro ⟨fields, hfind, hp, hq⟩
    exact ⟨⟨fields, hfind, hp⟩, fun h ↦ hq ((where_iff hfind).1 h)⟩
  · rintro ⟨⟨fields, hfind, hp⟩, hq⟩
    exact ⟨fields, hfind, hp, fun h ↦ hq ((where_iff hfind).2 h)⟩

theorem where_or : c.Where (fun f ↦ p f ∨ q f) id ↔ c.Where p id ∨ c.Where q id := by
  constructor
  · rintro ⟨fields, hfind, hp | hq⟩
    · exact .inl ⟨fields, hfind, hp⟩
    · exact .inr ⟨fields, hfind, hq⟩
  · rintro (⟨fields, hfind, hp⟩ | ⟨fields, hfind, hq⟩)
    · exact ⟨fields, hfind, .inl hp⟩
    · exact ⟨fields, hfind, .inr hq⟩

theorem where_exists {α : Type} {l : List α} {p : α → Dict Bytes → Prop} :
    c.Where (fun f ↦ ∃ x ∈ l, p x f) id ↔ ∃ x ∈ l, c.Where (p x) id := by
  constructor
  · rintro ⟨fields, hfind, x, hx, hp⟩
    exact ⟨x, hx, fields, hfind, hp⟩
  · rintro ⟨x, hx, fields, hfind, hp⟩
    exact ⟨fields, hfind, x, hx, hp⟩

theorem not_where_false : ¬ c.Where (fun _ ↦ False) id :=
  fun ⟨_, _, h⟩ ↦ h

/-! ### Occurrences by position -/

section Positions

variable {a : Analyzer} {o : SearchOptions} {fields : Dict Bytes} {term : Bytes}

/-- A term stands at the positions of its tokens. -/
theorem mem_positions {tokens : List Token} {n : UInt32} :
    n ∈ positions term tokens ↔ ∃ token ∈ tokens, token.text = term ∧ token.position = n := by
  simp [positions, and_assoc]

/-- A term occurs where it has positions. -/
theorem has_iff : Has a o fields term ↔
    ∃ field text, fields.find? field = some text ∧ o.admits field = true ∧
      positions term (a.tokens text field) ≠ [] := by
  have hne : ∀ tokens : List Token, positions term tokens ≠ [] ↔
      ∃ token ∈ tokens, token.text = term := by
    intro tokens
    simp [positions]
  simp only [Has, hne]

/-- Tokens of a field stand at the distances of a phrase where the positions of their terms do. -/
theorem exists_tokens_iff {tokens : List Token} {first : Token} {others : List Token} :
    (∃ token ∈ tokens, token.text = first.text ∧
      ∀ other ∈ others, ∃ token' ∈ tokens, token'.text = other.text ∧
        token'.position = token.position + (other.position - first.position)) ↔
      ∃ n ∈ positions first.text tokens, ∀ other ∈ others,
        n + (other.position - first.position) ∈ positions other.text tokens := by
  simp only [mem_positions]
  constructor
  · rintro ⟨token, hmem, htext, hall⟩
    exact ⟨token.position, ⟨token, hmem, htext, rfl⟩, hall⟩
  · rintro ⟨n, ⟨token, hmem, htext, rfl⟩, hall⟩
    exact ⟨token, hmem, htext, hall⟩

/-- A phrase occurs where its tokens have the positions. -/
theorem hasPhrase_iff {first : Token} {others : List Token} :
    HasPhrase a o fields (first :: others) ↔
      ∃ field text, fields.find? field = some text ∧ o.admits field = true ∧
        ∃ n ∈ positions first.text (a.tokens text field), ∀ other ∈ others,
          n + (other.position - first.position) ∈ positions other.text (a.tokens text field) := by
  simp only [HasPhrase, exists_tokens_iff]

end Positions

end Corpus

end Concordance
