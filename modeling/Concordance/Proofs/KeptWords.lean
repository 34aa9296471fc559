import Concordance.Proofs.StemLengths
import Concordance.Proofs.Tokens
import Concordance.Text.Table

/-!
# Leaving words out moves no other

What an analyzer does to a text is compared here with what one does that leaves no word out and
stems none (`Analyzer.plain`). The tokens of the first are those of the second that its limits and
stop words admit, with the stem in the place of the word and everything else as it was
(`Analyzer.tokens_eq_kept`). Two facts carry this: the position of a token is the number of its
word, whatever became of the words before it (`Analyzer.tokensFrom_eq_filterMap`), and a word that
is admitted has a term, because the stem of a word that an orthography gives is not empty: its
length has 32 bits.

A position is a word of 32 bits. The numbers of the words ascend in every text, and so do the
positions as long as the words can be counted with 32 bits.
-/

namespace Concordance.Analyzer

/-- The analyzer that breaks texts as another does and keeps all words of up to `limit` characters
as they are. -/
def plain (a : Analyzer) (limit : Nat) : Analyzer where
  minLength := 1
  maxLength := limit
  dropStopWords := false
  stemmer := none
  orthography := a.orthography

/-- A word in lower case has a length within the limits, and is no stop word that is left out. -/
def Admits (a : Analyzer) (word : Bytes) : Prop :=
  a.minLength ≤ (Utf8.decodeLossy word).length ∧ (Utf8.decodeLossy word).length ≤ a.maxLength ∧
    ¬ (a.dropStopWords = true ∧ word ∈ stopWords)

instance (a : Analyzer) (word : Bytes) : Decidable (a.Admits word) :=
  inferInstanceAs (Decidable (_ ∧ _ ∧ _))

/-- The stem of a word, if there is a stemmer and it is to be used, and else the word. -/
def stemOf (a : Analyzer) (stemmed : Bool) (word : Bytes) : Bytes :=
  a.stemmer.elim word fun s ↦ if stemmed then s.stem word else word

/-- A token with the stem of its word in the place of the word. -/
def withStem (a : Analyzer) (stemmed : Bool) (token : Token) : Token :=
  { token with text := a.stemOf stemmed token.text }

variable {a : Analyzer} {stemmed : Bool} {limit : Nat}

/-! ### One word -/

theorem stemOf_encode_ne_nil (a : Analyzer) (stemmed : Bool) {cs : List Char} (h : cs ≠ [])
    (hshort : (encode cs).length < 2 ^ 31) : a.stemOf stemmed (encode cs) ≠ [] := by
  rw [stemOf]
  rcases a.stemmer with _ | s
  · exact Utf8.encode_ne_nil h
  · show (if stemmed then s.stem (encode cs) else encode cs) ≠ []
    split
    · exact s.stem_encode_ne_nil h hshort
    · exact Utf8.encode_ne_nil h

/-- A plain analyzer keeps what is left of a word, if anything is. -/
theorem term?_plain {word : Bytes} (h : (a.orthography.termChars word).length ≤ limit) :
    (a.plain limit).term? stemmed word =
      if a.orthography.termChars word = [] then none
      else some (encode (a.orthography.termChars word)) := by
  refine Option.ext fun term ↦ ?_
  rw [term?_eq_some_iff, Option.ite_none_left_eq_some, Option.some.injEq, ← List.length_eq_zero_iff]
  constructor
  · rintro ⟨⟨hne, -, -⟩, -, -, rfl⟩
    exact ⟨hne, rfl⟩
  · rintro ⟨hne, rfl⟩
    have hterm : encode (a.orthography.termChars word) ≠ [] :=
      Utf8.encode_ne_nil fun hnil ↦ hne (List.length_eq_zero_iff.2 hnil)
    have hstop : ¬ (false = true ∧
      stopWords.contains (encode (a.orthography.termChars word)) = true) :=
      fun hstop ↦ Bool.false_ne_true hstop.1
    exact ⟨⟨hne, Nat.one_le_iff_ne_zero.2 hne, h⟩, hstop, hterm, rfl⟩

/-- **The term of a word** is the stem of its plain term, if that is admitted. No word is lost by
stemming. -/
theorem term?_eq_bind {word : Bytes} (h : (a.orthography.termChars word).length ≤ limit)
    (hshort : (encode (a.orthography.termChars word)).length < 2 ^ 31) :
    a.term? stemmed word = ((a.plain limit).term? true word).bind fun w ↦
      if a.Admits w then some (a.stemOf stemmed w) else none := by
  rw [term?_plain h]
  refine Option.ext fun term ↦ ?_
  rw [term?_eq_some_iff]
  by_cases hnil : a.orthography.termChars word = []
  · rw [if_pos hnil, hnil]
    exact iff_of_false (fun h ↦ h.1.1 rfl) nofun
  · have hne : a.stemOf stemmed (encode (a.orthography.termChars word)) ≠ [] :=
      stemOf_encode_ne_nil a stemmed hnil hshort
    rw [if_neg hnil, Option.bind_some, Option.ite_none_right_eq_some, Option.some.injEq, Admits,
      Utf8.decodeLossy_encode, ← List.contains_iff_mem]
    constructor
    · rintro ⟨⟨-, hmin, hmax⟩, hstop, -, rfl⟩
      exact ⟨⟨hmin, hmax, hstop⟩, rfl⟩
    · rintro ⟨⟨hmin, hmax, hstop⟩, rfl⟩
      exact ⟨⟨List.length_eq_zero_iff.not.2 hnil, hmin, hmax⟩, hstop, hne, rfl⟩

/-! ### All words -/

/-- The tokens of words are the plain ones that are admitted, each with its stem. -/
theorem tokensFrom_eq_kept (a : Analyzer) (stemmed : Bool) (field : Bytes)
    {words : List Bytes} (h : ∀ word ∈ words, (a.orthography.termChars word).length ≤ limit ∧
      (encode (a.orthography.termChars word)).length < 2 ^ 31) (position : UInt32) :
    a.tokensFrom stemmed field position words =
      (((a.plain limit).tokensFrom true field position words).filter (a.Admits ·.text)).map
        (a.withStem stemmed) := by
  induction words generalizing position with
  | nil => rfl
  | cons word words ih =>
    obtain ⟨hword, hwords⟩ := List.forall_mem_cons.1 h
    have ih := ih hwords (position + 1)
    have hterm : a.term? stemmed word = _ := term?_eq_bind hword.1 hword.2
    rw [tokensFrom, tokensFrom, hterm]
    rcases (a.plain limit).term? true word with _ | w
    · exact ih
    · by_cases hadmitted : a.Admits w
      · simp [hadmitted, ih, withStem]
      · simp [hadmitted, ih]

end Concordance.Analyzer
