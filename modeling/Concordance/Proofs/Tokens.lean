import Concordance.Proofs.Corpus
import Concordance.Proofs.Numbers
import Concordance.Proofs.Stem
import Mathlib.Data.List.Range

/-!
# Tokens

What the tokens of a text are: their terms are well-formed, and they stand at the numbers of their
words (`Analyzer.tokensFrom_eq_filterMap`). A position is a word of 32 bits, so positions ascend as
long as the words of the text can be counted with 32 bits (`Analyzer.tokensFrom_ascending`); beyond
that they begin again at zero.
-/

namespace Concordance

/-! ### The lengths of words -/

namespace Orthography

/-- A word ends at a boundary, so it is no longer than a boundary can be far from the beginning. -/
theorem length_lt_of_mem_wordsFrom {start : Nat} {rest word : Bytes} {bs : List Boundary}
    (h : word ∈ wordsFrom start rest bs) (hbs : ∀ b ∈ bs, b.stop < 2 ^ 31) :
    word.length < 2 ^ 31 := by
  induction bs generalizing start rest with
  | nil => exact absurd h List.not_mem_nil
  | cons b bs ih =>
    obtain ⟨hb, hbs⟩ := List.forall_mem_cons.1 hbs
    rw [wordsFrom] at h
    split at h
    · rcases List.mem_cons.1 h with rfl | h
      · exact (List.length_take_le ..).trans_lt ((Nat.sub_le ..).trans_lt hb)
      · exact ih h hbs
    · exact ih h hbs

/-- **What is kept of a word of a text has a length of 32 bits.** -/
theorem length_encode_termChars_lt (o : Orthography) {text word : Bytes} (h : word ∈ o.words text) :
    (encode (o.termChars word)).length < 2 ^ 31 := by
  have hword : word.length < 2 ^ 31 :=
    length_lt_of_mem_wordsFrom h fun b hb ↦ (o.inside text b hb).2.2
  have hlower := o.short (Utf8.decodeLossy word) ((Utf8.length_decodeLossy_le word).trans_lt hword)
  exact (Utf8.length_encode_le List.filter_sublist).trans_lt hlower

end Orthography

/-! ### Terms -/

namespace Analyzer

variable {a : Analyzer} {stemmed : Bool}

/-- **A word has a term** if what is kept of it has a length within the limits and is no stop
word. The term is that, stemmed if there is a stemmer and it is to be used, unless nothing is
left then. -/
theorem term?_eq_some_iff {word term : Bytes} : a.term? stemmed word = some term ↔
    let kept := a.orthography.termChars word
    (kept.length ≠ 0 ∧ a.minLength ≤ kept.length ∧ kept.length ≤ a.maxLength) ∧
      ¬ (a.dropStopWords = true ∧ stopWords.contains (encode kept) = true) ∧
      term ≠ [] ∧ term = a.stemmer.elim (encode kept) fun s ↦
        if stemmed then s.stem (encode kept) else encode kept := by
  have hend : ∀ result : Bytes, (if result.isEmpty then none else some result) = some term ↔
      term ≠ [] ∧ term = result := by
    intro result
    split
    · rename_i hnil
      exact iff_of_false nofun fun h ↦ h.1 (h.2.trans (List.isEmpty_iff.1 hnil))
    · rename_i hne
      rw [Option.some.injEq, eq_comm]
      refine (and_iff_right_of_imp ?_).symm
      rintro rfl hnil
      exact hne (List.isEmpty_iff.2 hnil)
  rw [term?]
  dsimp only
  split
  · exact iff_of_false nofun (by omega)
  · rename_i hlength
    rw [not_or, not_or, Nat.not_lt, Nat.not_lt] at hlength
    rw [and_iff_right hlength]
    split
    · rename_i hstop
      exact iff_of_false nofun fun h ↦ h.1 hstop
    · rename_i hstop
      rw [and_iff_right hstop]
      cases a.stemmer <;> exact hend _

/-- **A term is well-formed.** -/
theorem isValid_of_term? {word term : Bytes} (h : a.term? stemmed word = some term) :
    Utf8.isValid term = true := by
  have hkept : Utf8.isValid (encode (a.orthography.termChars word)) = true := Utf8.isValid_encode _
  obtain ⟨-, -, -, rfl⟩ := term?_eq_some_iff.1 h
  cases a.stemmer with
  | none => exact hkept
  | some s =>
    show Utf8.isValid (if stemmed then s.stem _ else _) = true
    split
    · exact Stemmer.isValid_stem s hkept
    · exact hkept

/-- A term is not empty. -/
theorem term?_ne_nil {word term : Bytes} (h : a.term? stemmed word = some term) :
    term ≠ [] :=
  (term?_eq_some_iff.1 h).2.2.1

/-- **Tokens stand at the numbers of their words**, counted with 32 bits. -/
theorem tokensFrom_eq_filterMap (a : Analyzer) (stemmed : Bool) (field : Bytes)
    (words : List Bytes) (n : Nat) :
    a.tokensFrom stemmed field n.toUInt32 words = (words.zipIdx n).filterMap fun w ↦
      (a.term? stemmed w.1).map fun term ↦ ⟨term, w.2.toUInt32, field⟩ := by
  induction words generalizing n with
  | nil => rfl
  | cons word words ih =>
    have hnext : n.toUInt32 + 1 = (n + 1).toUInt32 := (toUInt32_add n 1).symm
    rw [tokensFrom, List.zipIdx_cons, hnext, ih (n + 1)]
    rcases hterm : a.term? stemmed word with _ | term
    · rw [List.filterMap_cons_none (by simp [hterm])]
    · rw [List.filterMap_cons_some (by simp [hterm]; rfl)]

/-- The tokens of words have the terms of the words. -/
theorem exists_of_mem_tokensFrom {field : Bytes} {words : List Bytes} {token : Token}
    {position : UInt32} (h : token ∈ a.tokensFrom stemmed field position words) :
    ∃ word ∈ words, a.term? stemmed word = some token.text := by
  rw [← UInt32.ofNat_toNat (x := position)] at h
  have htokens : a.tokensFrom stemmed field position.toNat.toUInt32 words = _ :=
    tokensFrom_eq_filterMap a stemmed field words position.toNat
  obtain ⟨w, hw, h⟩ := List.mem_filterMap.1 (htokens ▸ h)
  obtain ⟨term, hterm, rfl⟩ := Option.map_eq_some_iff.1 h
  exact ⟨w.1, List.fst_mem_of_mem_zipIdx hw, hterm⟩

/-- The terms of tokens are well-formed. -/
theorem isValid_of_mem_tokensFrom {field : Bytes} {words : List Bytes} {token : Token}
    {position : UInt32} (h : token ∈ a.tokensFrom stemmed field position words) :
    Utf8.isValid token.text = true := by
  obtain ⟨word, -, hterm⟩ := exists_of_mem_tokensFrom h
  exact isValid_of_term? hterm

/-! ### Positions -/

/-- The numbers of the words that become tokens ascend. -/
theorem exists_places (a : Analyzer) (stemmed : Bool) (field : Bytes) (words : List Bytes) :
    ∃ places : List Nat, places.Pairwise (· < ·) ∧ (∀ n ∈ places, n < words.length) ∧
      (a.tokensFrom stemmed field 0 words).map (·.position) = places.map Nat.toUInt32 := by
  have hrange : words.zipIdx.Pairwise fun w v ↦ w.2 < v.2 := by
    rw [← List.pairwise_map, List.zipIdx_map_snd]
    exact List.pairwise_lt_range'
  refine ⟨words.zipIdx.filterMap fun w ↦ (a.term? stemmed w.1).map fun _ ↦ w.2, ?_, ?_, ?_⟩
  · rw [List.pairwise_filterMap]
    refine hrange.imp fun hlt m hm n hn ↦ ?_
    obtain ⟨-, -, rfl⟩ := Option.map_eq_some_iff.1 hm
    obtain ⟨-, -, rfl⟩ := Option.map_eq_some_iff.1 hn
    exact hlt
  · intro n hn
    obtain ⟨w, hw, hn⟩ := List.mem_filterMap.1 hn
    obtain ⟨-, -, rfl⟩ := Option.map_eq_some_iff.1 hn
    have hlt := List.snd_lt_of_mem_zipIdx hw
    omega
  · have htokens : a.tokensFrom stemmed field 0 words = _ :=
      tokensFrom_eq_filterMap a stemmed field words 0
    rw [htokens, List.map_filterMap, List.map_filterMap]
    refine List.filterMap_congr fun w _ ↦ ?_
    rw [Option.map_map, Option.map_map]
    rfl

/-- So positions ascend if the words can be counted with 32 bits. -/
theorem tokensFrom_ascending (a : Analyzer) (stemmed : Bool) (field : Bytes)
    {words : List Bytes} (h : words.length ≤ 2 ^ 32) :
    (a.tokensFrom stemmed field 0 words).Pairwise (·.position < ·.position) := by
  obtain ⟨places, hascending, hlt, hpositions⟩ := exists_places a stemmed field words
  have hwide : (places.map Nat.toUInt32).Pairwise (· < ·) := by
    rw [List.pairwise_map]
    refine hascending.imp_of_mem fun {m n} hm hn hmn ↦ ?_
    have hm := hlt m hm
    have hn := hlt n hn
    rw [UInt32.lt_iff_toNat_lt, toNat_toUInt32_of_lt (by omega), toNat_toUInt32_of_lt (by omega)]
    exact hmn
  rwa [← hpositions, List.pairwise_map] at hwide

end Analyzer

namespace Corpus

variable {a : Analyzer} {term text field : Bytes}

/-- **A term stands at the numbers of its words**, counted with 32 bits. -/
theorem positions_eq (a : Analyzer) (term text field : Bytes) :
    positions term (a.tokens text field) = (places a term text).map Nat.toUInt32 := by
  have htokens : a.tokens text field = _ :=
    Analyzer.tokensFrom_eq_filterMap a true field (a.orthography.words text) 0
  rw [htokens, positions, places]
  induction (a.orthography.words text).zipIdx with
  | nil => rfl
  | cons w ws ih =>
    rcases hterm : a.term? true w.1 with _ | t
    · simpa [hterm] using ih
    · by_cases ht : t = term
      · simpa [hterm, ht] using ih
      · simpa [hterm, ht] using ih

/-- **Positions ascend** in a text whose words can be counted with 32 bits. -/
theorem positions_ascending (a : Analyzer) (term text field : Bytes)
    (hwords : (a.orthography.words text).length ≤ 2 ^ 32) :
    (positions term (a.tokens text field)).Pairwise (· < ·) :=
  List.pairwise_map.2 ((a.tokensFrom_ascending true field hwords).filter _)

end Corpus

end Concordance
