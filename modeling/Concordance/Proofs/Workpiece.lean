import Concordance.Proofs.EndingTables
import Concordance.Proofs.MeasureWalk
import Concordance.Stem.Workpiece
import Mathlib.Algebra.Ring.Nat

/-!
# What a workpiece holds

A workpiece stands for two words: the one that ends where it says, and the stem under test. Both
are read off the buffer by `Workpiece.upTo`, and all that is asked of a workpiece is answered by one
of them, with no guard in the way: a letter is the last one up to its place, the measure is that of
the stem, a word that has an ending is found to have it. So it does not matter what is left in the
buffer behind the end of the word. The guards are exact (`Workpiece.isGuarded`): letters that are
not there are not read.

A move has a result if what it makes is a word of at least one letter that is not longer than the
word in the beginning.
-/

namespace Concordance.English.Workpiece

variable {final : Nat}

section

variable (p : Workpiece final) {i : Int}

/-! ### Guards -/

/-- What is asked of a workpiece has an answer exactly if the letters asked for are in the buffer,
and a move has a result exactly if it leaves both ends within their bounds. -/
structure IsGuarded : Prop where
  letter : ∀ i, (p.letter? i).isSome ↔ 0 ≤ i ∧ i < p.letters.length
  consonant : ∀ i, (p.isConsonant? i).isSome ↔ 0 ≤ i ∧ i < p.letters.length
  slice : ∀ i (n : Nat), (p.slice? i n).isSome ↔ 0 ≤ i ∧ i + n ≤ p.letters.length
  move : ∀ letters k j, (of? final letters k j).isSome ↔
    (0 ≤ k ∧ k ≤ final ∧ k < letters.length) ∧ (-1 ≤ j ∧ j ≤ final ∧ j < letters.length) ∧
      final < 2 ^ 31 - 1

/-- **All places are in range at every moment**, which is what it takes to be a workpiece. -/
theorem isGuarded : p.IsGuarded where
  letter i := by
    rw [letter?]
    split
    · rw [isSome_getElem?]
      omega
    · exact iff_of_false Bool.false_ne_true (by omega)
  consonant i := by
    rw [isConsonant?]
    split
    · rw [Buffer.isConsonant?_isSome_iff]
      omega
    · exact iff_of_false Bool.false_ne_true (by omega)
  slice i n := by
    rw [slice?]
    split
    · rename_i h
      exact iff_of_true rfl h
    · rename_i h
      exact iff_of_false Bool.false_ne_true h
  move letters k j := by
    rw [of?]
    split
    · rename_i h
      exact iff_of_true rfl h
    · rename_i h
      exact iff_of_false Bool.false_ne_true h

/-! ### The letters up to a place -/

theorem length_upTo (h : i < p.letters.length) : (p.upTo i).length = (i + 1).toNat := by
  rw [upTo, List.length_take]
  omega

/-- The word has as many letters as its last place says. -/
theorem length_word : (p.word.length : Int) = p.wordEnd + 1 := by
  have hnonneg := p.wordEnd_nonneg
  rw [word, p.length_upTo p.wordEnd_lt]
  omega

/-- So has the stem under test. -/
theorem length_tested : (p.tested.length : Int) = p.stemEnd + 1 := by
  have hge := p.stemEnd_ge
  rw [tested, p.length_upTo p.stemEnd_lt]
  omega

/-- No workpiece is without a word. -/
theorem length_word_pos : 0 < p.word.length := by
  have hlength := p.length_word
  have hnonneg := p.wordEnd_nonneg
  omega

theorem length_word_le : p.word.length ≤ final + 1 := by
  have hlength := p.length_word
  have hle := p.wordEnd_le
  omega

/-- Behind the word there is the rest of the buffer. -/
theorem word_append_drop : p.word ++ p.letters.drop p.word.length = p.letters := by
  have hlength := p.length_word
  have hplace : p.word.length = (p.wordEnd + 1).toNat := by omega
  rw [hplace]
  exact List.take_append_drop ..

theorem upTo_pred (h : i < p.letters.length) : p.upTo (i - 1) = (p.upTo i).dropLast := by
  rw [List.dropLast_eq_take, p.length_upTo h, upTo, upTo, List.take_take]
  congr 1
  omega

/-! ### Questions -/

/-- The letter at a place is the last one up to it. -/
theorem letter?_eq (h : i < p.letters.length) : p.letter? i = last? (p.upTo i) := by
  rw [letter?, last?, List.getLast?_eq_getElem?, p.length_upTo h, upTo]
  split
  · rw [List.getElem?_take_of_lt (by omega)]
    congr 1
    omega
  · have hnone : (i + 1).toNat = 0 := by omega
    rw [hnone]
    rfl

/-- At the end of the word its last letter is read. -/
theorem letter?_wordEnd : p.letter? p.wordEnd = last? p.word :=
  p.letter?_eq p.wordEnd_lt

/-- The letter before it is read at the place before. -/
theorem letter?_wordEnd_pred : p.letter? (p.wordEnd - 1) = penultimate? p.word := by
  have hlt := p.wordEnd_lt
  rw [p.letter?_eq (by omega), p.upTo_pred hlt]
  rfl

theorem letter?_stemEnd : p.letter? p.stemEnd = last? p.tested :=
  p.letter?_eq p.stemEnd_lt

/-- The consonants up to a place are those of the buffer. -/
theorem isConsonant?_eq (h : i < p.letters.length) {j : Int} {n : Nat} (hj : j = n) (hle : j ≤ i) :
    p.isConsonant? j = some (isConsonantAt (p.upTo i) n) := by
  subst hj
  rw [isConsonant?, if_pos (Int.natCast_nonneg n), Int.toNat_natCast,
    Buffer.isConsonant?_eq (by omega), upTo, isConsonantAt_take (by omega) (by omega)]

/-- Not before the second letter one can be doubled. -/
theorem isDoubled?_eq (h : i < p.letters.length) :
    p.isDoubled? i = some (endsDoubled (p.upTo i)) := by
  have hlength := p.length_upTo h
  rw [isDoubled?]
  split
  · have hnot : endsDoubled (p.upTo i) = false := by
      refine Bool.eq_false_iff.2 fun hdoubled ↦ ?_
      have htwo := two_le_of_endsDoubled hdoubled
      omega
    rw [hnot]
    rfl
  obtain ⟨stem, ending, hword, hending⟩ :=
    exists_append_of_le_length (w := p.upTo i) (n := 2) (by omega)
  obtain ⟨a, b, rfl⟩ := List.length_eq_two.1 hending
  have hplace : i = (stem.length + 1 : Nat) := by
    rw [hword, List.length_append, hending] at hlength
    omega
  have hb : p.letter? i = some b := by
    rw [p.letter?_eq h, hword]
    exact last?_of_suffix (List.suffix_append ..) rfl
  have ha : p.letter? (i - 1) = some a := by
    rw [p.letter?_eq (by omega), p.upTo_pred h, hword]
    exact penultimate?_of_suffix (List.suffix_append ..) rfl
  have hconsonant : p.isConsonant? i = some (isConsonantAt (p.upTo i) (stem.length + 1)) :=
    p.isConsonant?_eq h hplace (Int.le_refl i)
  rw [hb, ha, hconsonant, hword, endsDoubled_append]
  show (if b ≠ a then some false else _) = _
  by_cases hab : b = a
  · rw [if_neg (not_not.2 hab), hab, beq_self_eq_true, Bool.true_and]
  · rw [if_pos hab, beq_false_of_ne hab, Bool.false_and]

/-- Whether a consonant, a vowel and a consonant end at a place is found by reading three
letters. -/
theorem isShort?_eq (h : i < p.letters.length) : p.isShort? i = some (endsShort (p.upTo i)) := by
  have hlength := p.length_upTo h
  rw [isShort?]
  split
  · have hnot : endsShort (p.upTo i) = false := by
      refine Bool.eq_false_iff.2 fun hshort ↦ ?_
      obtain ⟨stem, a, b, c, hword, -⟩ := (endsShort_iff _).1 hshort
      rw [hword, List.length_append] at hlength
      simp only [List.length_cons, List.length_nil] at hlength
      omega
    rw [hnot]
    rfl
  obtain ⟨stem, ending, hword, hending⟩ :=
    exists_append_of_le_length (w := p.upTo i) (n := 3) (by omega)
  obtain ⟨a, b, c, rfl⟩ := List.length_eq_three.1 hending
  have hplace : i = (stem.length + 2 : Nat) := by
    rw [hword, List.length_append, hending] at hlength
    omega
  have hc : p.letter? i = some c := by
    rw [p.letter?_eq h, hword]
    exact last?_of_suffix (List.suffix_append ..) rfl
  have hlast : p.isConsonant? i = some (isConsonantAt (p.upTo i) (stem.length + 2)) :=
    p.isConsonant?_eq h hplace (Int.le_refl i)
  have hmiddle : p.isConsonant? (i - 1) = some (isConsonantAt (p.upTo i) (stem.length + 1)) :=
    p.isConsonant?_eq h (by omega) (by omega)
  have hfirst : p.isConsonant? (i - 2) = some (isConsonantAt (p.upTo i) stem.length) :=
    p.isConsonant?_eq h (by omega) (by omega)
  rw [hc, hlast, hmiddle, hfirst, hword, endsShort_append]
  generalize isConsonantAt (stem ++ [a, b, c]) = f
  cases f stem.length <;> cases f (stem.length + 1) <;> cases f (stem.length + 2) <;> rfl

/-- The measure asked for is that of the stem. -/
theorem measure?_eq : p.measure? = some (measure p.tested) := by
  have hlt := p.stemEnd_lt
  have hstop : (p.stemEnd + 1).toNat ≤ p.letters.length := by omega
  rw [measure?, Buffer.measure?_eq hstop, Buffer.turnsBefore_eq_measure hstop]
  rfl

theorem hasVowelFrom?_eq {w : Bytes} {stop i : Nat} (hstop : stop ≤ w.length) :
    ∃ found, hasVowelFrom? w stop i = some found ∧
      (found = true ↔ ∃ j, i ≤ j ∧ j < stop ∧ isConsonantAt w j = false) := by
  fun_induction hasVowelFrom? w stop i with
  | case1 i hle =>
    refine ⟨false, rfl, iff_of_false Bool.false_ne_true fun ⟨j, hij, hj, _⟩ ↦ ?_⟩
    omega
  | case2 i hlt hnone =>
    rw [Buffer.isConsonant?_eq (by omega)] at hnone
    cases hnone
  | case3 i hlt hconsonant ih =>
    rw [Buffer.isConsonant?_eq (by omega), Option.some.injEq] at hconsonant
    obtain ⟨found, hfound, hiff⟩ := ih
    refine ⟨found, hfound, hiff.trans ⟨fun ⟨j, hij, hj⟩ ↦ ⟨j, by omega, hj⟩, ?_⟩⟩
    rintro ⟨j, hij, hj, hvowel⟩
    have hne : i ≠ j := by
      rintro rfl
      rw [hconsonant] at hvowel
      cases hvowel
    exact ⟨j, by omega, hj, hvowel⟩
  | case4 i hlt hvowel =>
    rw [Buffer.isConsonant?_eq (by omega), Option.some.injEq] at hvowel
    exact ⟨true, rfl, iff_of_true rfl ⟨i, Nat.le_refl i, by omega, hvowel⟩⟩

/-- Whether the stem under test has a vowel is found by walking to its end. -/
theorem hasVowel?_eq : p.hasVowel? = some (hasVowel p.tested) := by
  have hlt := p.stemEnd_lt
  have hstop : (p.stemEnd + 1).toNat ≤ p.letters.length := by omega
  obtain ⟨found, hfound, hiff⟩ := hasVowelFrom?_eq (i := 0) hstop
  rw [hasVowel?, hfound, Option.some.injEq, Bool.eq_iff_iff, hiff, hasVowel_iff, HasVowel, tested,
    p.length_upTo hlt]
  constructor
  · rintro ⟨j, -, hj, hvowel⟩
    exact ⟨j, hj, (isConsonantAt_take hj hstop).trans hvowel⟩
  · rintro ⟨j, hj, hvowel⟩
    exact ⟨j, Nat.zero_le j, hj, (isConsonantAt_take hj hstop).symm.trans hvowel⟩

/-- As many letters as the word has are there at its end. -/
theorem slice?_eq {n : Nat} (h : n ≤ p.word.length) :
    p.slice? (p.wordEnd - n + 1) n = some (p.word.drop (p.word.length - n)) := by
  have hlength := p.length_word
  have hlt := p.wordEnd_lt
  have hplace : (p.wordEnd - n + 1).toNat = p.word.length - n := by omega
  rw [slice?, if_pos (by omega), hplace, ← p.word_append_drop,
    List.drop_append_of_le_length (Nat.sub_le ..), List.take_append_of_le_length]
  · rw [List.take_of_length_le (by rw [List.length_drop]; omega)]
  · rw [List.length_drop]
    omega

end

variable {p : Workpiece final} {ending w stem : Bytes}

/-! ### Moves -/

/-- What is within its bounds can be made from a workpiece. -/
theorem exists_of? (p : Workpiece final) (letters : Bytes) (k j : Int) (hk : 0 ≤ k ∧ k ≤ final)
    (hlt : k < letters.length) (hj : -1 ≤ j ∧ j ≤ final) (hjlt : j < letters.length) :
    ∃ q, of? final letters k j = some q ∧ q.letters = letters ∧ q.wordEnd = k ∧ q.stemEnd = j :=
  ⟨_, dif_pos ⟨⟨hk.1, hk.2, hlt⟩, ⟨hj.1, hj.2, hjlt⟩, p.final_lt⟩, rfl, rfl, rfl⟩

/-- A workpiece that holds a word and has a beginning of it under test. -/
structure Tests (p : Workpiece final) (w stem : Bytes) : Prop where
  word : p.word = w
  tested : p.tested = stem
  le : stem.length ≤ w.length

theorem Tests.measure?_eq (hp : p.Tests w stem) : p.measure? = some (measure stem) :=
  hp.tested ▸ p.measure?_eq

theorem Tests.hasVowel?_eq (hp : p.Tests w stem) : p.hasVowel? = some (hasVowel stem) :=
  hp.tested ▸ p.hasVowel?_eq

/-- A word that does not have an ending is found not to have it. -/
theorem ends?_of_lacks (h : ¬ ending <:+ p.word) : p.ends? ending = some none := by
  rw [List.suffix_iff_eq_drop] at h
  rw [ends?]
  split
  · rfl
  · rename_i hge
    have hlength := p.length_word
    rw [p.slice?_eq (by omega)]
    exact if_pos (Ne.symm h)

/-- In a word that has an ending, what stands before it comes under test. -/
theorem ends?_of_before? (h : before? ending p.word = some stem) :
    ∃ q, p.ends? ending = some (some q) ∧ q.Tests p.word stem := by
  have hword := before?_eq_some_iff.1 h
  have hlength := p.length_word
  have hlt := p.wordEnd_lt
  have hends := length_before h
  have hfinal := p.wordEnd_le
  obtain ⟨q, hq, hletters, hwordEnd, hstemEnd⟩ :=
    p.exists_of? p.letters p.wordEnd (p.wordEnd - ending.length) ⟨p.wordEnd_nonneg, hfinal⟩ hlt
      ⟨by omega, by omega⟩ (by omega)
  refine ⟨q, ?_, ?_, ?_, by omega⟩
  · have hslice : p.slice? (p.wordEnd - ending.length + 1) ending.length = some ending := by
      rw [p.slice?_eq (by omega), hword, List.length_append, Nat.add_sub_cancel, List.drop_left]
    rw [ends?, if_neg (by omega), hslice, hq]
    exact if_neg (not_not.2 rfl)
  · rw [word, upTo, hletters, hwordEnd]
    rfl
  · have hplace : (p.wordEnd - ending.length + 1).toNat = stem.length := by omega
    rw [tested, upTo, hletters, hstemEnd, hplace, ← p.word_append_drop, hword, List.append_assoc,
      List.take_left]

/-- The word may end at any place of the buffer up to where it ended in the beginning. -/
theorem exists_endAt? {i : Int} (hi : 0 ≤ i) (hfinal : i ≤ final) (hlt : i < p.letters.length) :
    ∃ q, p.endAt? i = some q ∧ q.word = p.upTo i ∧ q.letters = p.letters ∧ q.wordEnd = i ∧
      q.tested = p.tested := by
  obtain ⟨q, hq, hletters, rfl, hstemEnd⟩ := p.exists_of? p.letters i p.stemEnd ⟨hi, hfinal⟩ hlt
    ⟨p.stemEnd_ge, p.stemEnd_le⟩ p.stemEnd_lt
  refine ⟨q, hq, ?_, hletters, rfl, ?_⟩
  · rw [word, upTo, upTo, hletters]
  · rw [tested, tested, upTo, upTo, hletters, hstemEnd]

/-- What stands behind a word with a letter may go. -/
theorem exists_endAt?_of_append (h : p.word = w ++ ending) (hpos : 0 < w.length) :
    ∃ q, p.endAt? (p.wordEnd - ending.length) = some q ∧ q.word = w ∧ q.tested = p.tested := by
  have hlength := p.length_word
  have hfinal := p.wordEnd_le
  have hlt := p.wordEnd_lt
  have happend := congrArg List.length h
  rw [List.length_append] at happend
  obtain ⟨q, hq, hword, -, -, htested⟩ := exists_endAt? (p := p)
    (i := p.wordEnd - ending.length) (by omega) (by omega) (by omega)
  have hplace : (p.wordEnd - ending.length + 1).toNat = w.length := by omega
  refine ⟨q, hq, ?_, htested⟩
  rw [hword, upTo, hplace, ← p.word_append_drop, h, List.append_assoc, List.take_left]

/-- A last letter that is not the only one may go. -/
theorem exists_endAt?_pred (h : 2 ≤ p.word.length) :
    ∃ q, p.endAt? (p.wordEnd - 1) = some q ∧ q.word = p.word.dropLast ∧ q.tested = p.tested := by
  obtain ⟨c, hc⟩ := exists_last? p.length_word_pos
  have hpos : 0 < p.word.dropLast.length := by
    rw [List.length_dropLast]
    omega
  exact exists_endAt?_of_append (eq_concat_of_last? hc) hpos

/-- All that stands behind a stem with a letter may go. -/
theorem exists_endAt?_stemEnd (hp : p.Tests w stem) (hpos : 0 < stem.length) :
    ∃ q, p.endAt? p.stemEnd = some q ∧ q.Tests stem stem := by
  obtain ⟨rfl, rfl, hle⟩ := hp
  have hlength := p.length_word
  have hstem := p.length_tested
  have hfinal := p.wordEnd_le
  obtain ⟨q, hq, hword, -, -, htested⟩ :=
    exists_endAt? (p := p) (i := p.stemEnd) (by omega) (by omega) p.stemEnd_lt
  exact ⟨q, hq, hword, htested, Nat.le_refl _⟩

/-- The whole word can be put under test. -/
theorem exists_testWord? (p : Workpiece final) :
    ∃ q, p.testWord? = some q ∧ q.Tests p.word p.word := by
  have hnonneg := p.wordEnd_nonneg
  obtain ⟨q, hq, hletters, hwordEnd, hstemEnd⟩ :=
    p.exists_of? p.letters p.wordEnd p.wordEnd ⟨hnonneg, p.wordEnd_le⟩ p.wordEnd_lt
      ⟨by omega, p.wordEnd_le⟩ p.wordEnd_lt
  refine ⟨q, hq, ?_, ?_, Nat.le_refl _⟩
  · rw [word, word, upTo, upTo, hletters, hwordEnd]
  · rw [tested, word, upTo, upTo, hletters, hstemEnd]

/-- Behind the stem there may be any letters that do not make a word longer than the first one. -/
theorem exists_exchange? (hp : p.Tests w stem) (hpos : 0 < (stem ++ ending).length)
    (hle : (stem ++ ending).length ≤ final + 1) :
    ∃ q, p.exchange? ending = some q ∧ q.word = stem ++ ending := by
  obtain ⟨rfl, rfl, hstem⟩ := hp
  have hlength := p.length_word
  have htested := p.length_tested
  have hge := p.stemEnd_ge
  rw [List.length_append] at hpos hle
  obtain ⟨q, hq, hletters, hwordEnd, -⟩ := p.exists_of?
    (p.tested ++ ending ++ p.letters.drop (p.wordEnd + 1).toNat) (p.stemEnd + ending.length)
    p.stemEnd ⟨by omega, by omega⟩ (by rw [List.length_append, List.length_append]; omega)
    ⟨hge, p.stemEnd_le⟩ (by rw [List.length_append, List.length_append]; omega)
  refine ⟨q, (if_pos (by omega)).trans hq, ?_⟩
  have hplace : (p.stemEnd + ending.length + 1).toNat = (p.tested ++ ending).length := by
    rw [List.length_append]
    omega
  rw [word, upTo, hletters, hwordEnd, hplace, List.take_left]

/-- The last letter can be written over. -/
theorem exists_setLast? {b : UInt8} (c : UInt8) (h : p.word = stem ++ [b]) :
    ∃ q, p.setLast? c = some q ∧ q.word = stem ++ [c] := by
  have hlength := p.length_word
  have hplace : p.wordEnd.toNat = stem.length := by
    rw [h, List.length_append, List.length_singleton] at hlength
    omega
  obtain ⟨q, hq, hletters, hwordEnd, -⟩ := p.exists_of?
    (p.letters.set p.wordEnd.toNat c) p.wordEnd p.stemEnd ⟨p.wordEnd_nonneg, p.wordEnd_le⟩
    (by rw [List.length_set]; exact p.wordEnd_lt) ⟨p.stemEnd_ge, p.stemEnd_le⟩
    (by rw [List.length_set]; exact p.stemEnd_lt)
  refine ⟨q, hq, ?_⟩
  calc q.word = p.word.set p.wordEnd.toNat c := by
        rw [word, upTo, hletters, hwordEnd, List.take_set]
        rfl
    _ = stem ++ [c] := by
        rw [h, hplace, List.set_append_right _ _ (Nat.le_refl _), Nat.sub_self]
        rfl

end Concordance.English.Workpiece
