import Concordance.Proofs.PorterSteps
import Concordance.Proofs.Workpiece

/-!
# Stems made in place

A step in place does to the word in the buffer what the step does to a word (`exists_plural?` and
those after it), so all of them together come to the same stem (`stemInPlace?_eq`). No guard stops
one of them, because of what it has found out before: an ending goes or is exchanged where a
vowel or a positive measure stands before it, which leaves letters, and no more letters come than
have gone, so the word never ends behind its first end.

Once only the stem under test is longer than the word. A final `e` has gone then, and the measure is
asked for of the letters up to it. They are still in the buffer, and a vowel at the end adds nothing
to a measure (`exists_dropFinalE?`).
-/

namespace Concordance.English

namespace Workpiece

variable {final : Nat} {p : Workpiece final} {w v stem : Bytes}

/-! ### The steps -/

/-- An ending is exchanged if the word has it, and otherwise the work goes on. -/
theorem exists_exchangeOr? {ending replacement : Bytes} {rest : Option Bytes}
    {rest? : Option (Workpiece final)} (hpos : 0 < v.length) (hle : v.length ≤ final + 1)
    (h : (match before? ending p.word with
      | some stem => some (stem ++ replacement)
      | _ => rest) = some v)
    (hrest : rest = some v → ∃ q, rest? = some q ∧ q.word = v) :
    ∃ q, (do
      match ← p.ends? ending with
      | some p => p.exchange? replacement
      | none => rest?) = some q ∧ q.word = v := by
  split at h
  · rename_i stem hstem
    obtain ⟨q, hq, htests⟩ := ends?_of_before? hstem
    obtain rfl := Option.some.inj h
    rw [hq]
    exact exists_exchange? htests hpos hle
  · rename_i hlacks
    rw [ends?_of_lacks (not_suffix hlacks)]
    exact hrest h

/-- A letter goes if a letter stands before it that is not `s`; it is asked for only then. -/
theorem exists_dropBehind? (h : (match penultimate? p.word with
      | some b => some (if b ≠ 115 then p.word.dropLast else p.word)
      | none => some p.word) = some v) :
    ∃ q, (do
      if p.wordEnd ≤ 0 then return p
      if (← p.letter? (p.wordEnd - 1)) ≠ 115 then p.endAt? (p.wordEnd - 1) else return p) =
        some q ∧ q.word = v := by
  rw [p.letter?_wordEnd_pred]
  split
  · rename_i hzero
    have hnone : penultimate? p.word = none := by
      rw [← p.letter?_wordEnd_pred]
      exact if_neg (by omega)
    rw [hnone] at h
    exact ⟨p, rfl, Option.some.inj h⟩
  · have hlength := p.length_word
    obtain ⟨b, hb⟩ := exists_penultimate? (w := p.word) (by omega)
    rw [hb] at h ⊢
    obtain rfl := Option.some.inj h
    rw [Option.bind_eq_bind, Option.bind_some]
    split
    · obtain ⟨q, hq, hword, -⟩ := exists_endAt?_pred (p := p) (by omega)
      exact ⟨q, hq, hword⟩
    · exact ⟨p, rfl, rfl⟩

/-- **Each step is made in place** if it is made on the word. This is step 1a. -/
theorem exists_plural? (h : plural p.word = some v) :
    ∃ q, p.plural? = some q ∧ q.word = v := by
  have hcut : IsCut p.word v := .plural p.length_word_pos h
  have hfinal := p.length_word_le
  obtain ⟨c, hc, h⟩ := Option.bind_eq_some_iff.1 h
  rw [plural?, p.letter?_wordEnd, hc, Option.bind_eq_bind, Option.bind_some]
  split at h
  · rename_i hne
    exact ⟨p, if_pos hne, Option.some.inj h⟩
  rename_i heq
  rw [if_neg heq]
  split at h
  · rename_i stem hstem
    obtain ⟨q, hq, htests⟩ := ends?_of_before? hstem
    have hword : q.word = (stem ++ utf8 "ss") ++ utf8 "es" :=
      htests.word.trans ((before?_eq_some_iff.1 hstem).trans
        (List.append_assoc stem (utf8 "ss") (utf8 "es")).symm)
    obtain rfl := Option.some.inj h
    obtain ⟨r, hr, hresult, -⟩ := exists_endAt?_of_append hword hcut.1
    rw [hq]
    exact ⟨r, hr, hresult⟩
  rename_i hsses
  rw [ends?_of_lacks (not_suffix hsses)]
  exact exists_exchangeOr? hcut.1 (hcut.2.trans hfinal) h exists_dropBehind?

/-- A letter that has gone comes back from the buffer. -/
theorem exists_mendLast? {c : UInt8} (hp : p.Tests w w) (hfinal : w.length ≤ final)
    (hc : last? w = some c) : ∃ q, p.mendLast? = some q ∧ q.word =
      if endsDoubled w then if c = 108 ∨ c = 115 ∨ c = 122 then w else w.dropLast
      else if measure w = 1 ∧ endsShort w then w ++ utf8 "e" else w := by
  obtain ⟨rfl, -, -⟩ := id hp
  have hlength := p.length_word
  have hlt := p.wordEnd_lt
  have hdoubled : p.isDoubled? p.wordEnd = some (endsDoubled p.word) := p.isDoubled?_eq hlt
  have hshort : p.isShort? p.wordEnd = some (endsShort p.word) := p.isShort?_eq hlt
  rw [mendLast?, hdoubled, hp.measure?_eq, hshort]
  simp only [Option.bind_eq_bind, Option.bind_some]
  split
  · rename_i hends
    obtain ⟨stem, b, hword, -⟩ := (endsDoubled_iff p.word).1 hends
    have hsuffix : [b, b] <:+ p.word := ⟨stem, hword.symm⟩
    obtain rfl : b = c := Option.some.inj ((last?_of_suffix hsuffix rfl).symm.trans hc)
    have htwo := two_le_of_endsDoubled hends
    obtain ⟨q, hq, hdrop, hletters, hwordEnd, -⟩ :=
      exists_endAt? (p := p) (i := p.wordEnd - 1) (by omega) (by omega) (by omega)
    have hdrop : q.word = p.word.dropLast := hdrop.trans (p.upTo_pred hlt)
    have hb : q.letter? q.wordEnd = some b := by
      rw [q.letter?_wordEnd, hdrop]
      exact penultimate?_of_suffix hsuffix rfl
    simp only [hq, hb, Option.bind_some]
    split
    · obtain ⟨r, hr, hback, -⟩ :=
        exists_endAt? (p := q) (i := q.wordEnd + 1) (by omega) (by omega) (by rw [hletters]; omega)
      refine ⟨r, hr, ?_⟩
      rw [hback, upTo, hletters, hwordEnd, Int.sub_add_cancel]
      rfl
    · exact ⟨q, rfl, hdrop⟩
  · by_cases hone : measure p.word = 1
    · rw [if_pos hone]
      cases hends : endsShort p.word with
      | true =>
        have hbound : (p.word ++ utf8 "e").length = p.word.length + 1 := List.length_append ..
        rw [if_pos rfl, if_pos ⟨hone, rfl⟩]
        exact exists_exchange? hp (by omega) (by omega)
      | false => exact ⟨p, rfl, (if_neg fun h ↦ Bool.false_ne_true h.2).symm⟩
    · rw [if_neg hone]
      exact ⟨p, rfl, (if_neg fun h ↦ hone h.1).symm⟩

/-- What is left without an ending is mended in place. -/
theorem exists_mend? (hp : p.Tests w w) (hfinal : w.length ≤ final) (h : mend w = some v) :
    ∃ q, p.mend? = some q ∧ q.word = v := by
  obtain ⟨rfl, -, -⟩ := id hp
  obtain ⟨hpos, hle⟩ := length_mend p.length_word_pos h
  have hbound : v.length ≤ final + 1 := hle.trans (Nat.succ_le_succ hfinal)
  rw [mend] at h
  rw [mend?]
  refine exists_exchangeOr? hpos hbound h fun h ↦ ?_
  refine exists_exchangeOr? hpos hbound h fun h ↦ ?_
  refine exists_exchangeOr? hpos hbound h fun h ↦ ?_
  obtain ⟨c, hc, h⟩ := Option.bind_eq_some_iff.1 h
  obtain ⟨q, hq, hword⟩ := exists_mendLast? hp hfinal hc
  refine ⟨q, hq, ?_⟩
  split at h
  · rename_i hdoubled
    rw [if_pos hdoubled] at hword
    exact hword.trans (Option.some.inj h)
  · rename_i hdoubled
    rw [if_neg hdoubled] at hword
    exact hword.trans (Option.some.inj h)

/-- An ending before which there is a vowel goes, and what is left is mended. -/
theorem exists_uninflect? (hp : p.Tests w stem) (hlength : stem.length + 2 ≤ w.length)
    (h : (if hasVowel stem then mend stem else some w) = some v) :
    ∃ q, p.uninflect? = some q ∧ q.word = v := by
  simp only [uninflect?, hp.hasVowel?_eq, Option.bind_eq_bind, Option.bind_some]
  split at h
  · rename_i hvowel
    obtain ⟨q, hq, htests⟩ := exists_endAt?_stemEnd hp (length_pos_of_hasVowel hvowel)
    have hfinal := p.length_word_le
    rw [hp.word] at hfinal
    rw [if_pos hvowel, hq]
    exact exists_mend? htests (by omega) h
  · rename_i hvowel
    exact ⟨p, if_neg hvowel, hp.word.trans (Option.some.inj h)⟩

/-- This is step 1b. -/
theorem exists_inflected? (h : inflected p.word = some v) :
    ∃ q, p.inflected? = some q ∧ q.word = v := by
  rw [inflected] at h
  rw [inflected?]
  split at h
  · rename_i stem hstem
    obtain ⟨q, hq, htests⟩ := ends?_of_before? hstem
    have hlength : stem.length + 3 = p.word.length := length_before hstem
    obtain rfl := Option.some.inj h
    simp only [hq, htests.measure?_eq, Option.bind_eq_bind, Option.bind_some]
    rw [← htests.word] at hlength ⊢
    split
    · obtain ⟨r, hr, hword, -⟩ := exists_endAt?_pred (p := q) (by omega)
      exact ⟨r, hr, hword⟩
    · exact ⟨q, rfl, rfl⟩
  rename_i heed
  rw [ends?_of_lacks (before?_eq_none_iff.1 heed)]
  split at h
  · rename_i stem hstem
    rcases Option.or_eq_some_iff.1 hstem with hed | ⟨hed, hing⟩
    · obtain ⟨q, hq, htests⟩ := ends?_of_before? hed
      rw [hq]
      exact exists_uninflect? htests (Nat.le_of_eq (length_before hed)) h
    · obtain ⟨q, hq, htests⟩ := ends?_of_before? hing
      rw [ends?_of_lacks (before?_eq_none_iff.1 hed), hq]
      exact exists_uninflect? htests (Nat.le_of_succ_le (Nat.le_of_eq (length_before hing))) h
  · rename_i hnone
    obtain ⟨hed, hing⟩ := Option.or_eq_none_iff.1 hnone
    rw [ends?_of_lacks (before?_eq_none_iff.1 hed), ends?_of_lacks (before?_eq_none_iff.1 hing)]
    exact ⟨p, rfl, Option.some.inj h⟩

/-- The `y` in the buffer is written over. -/
theorem exists_finalY? (p : Workpiece final) :
    ∃ q, p.finalY? = some q ∧ q.word = finalY p.word := by
  rw [finalY?, finalY]
  split
  · rename_i stem hstem
    obtain ⟨q, hq, htests⟩ := ends?_of_before? hstem
    have hword : q.word = stem ++ [121] := htests.word.trans (before?_eq_some_iff.1 hstem)
    simp only [hq, htests.hasVowel?_eq, Option.bind_eq_bind, Option.bind_some]
    split
    · exact exists_setLast? 105 hword
    · exact ⟨q, rfl, htests.word⟩
  · rename_i hnone
    rw [ends?_of_lacks (before?_eq_none_iff.1 hnone)]
    exact ⟨p, rfl, rfl⟩

/-- **A table is applied in place** if its rules do not make words longer. -/
theorem exists_applyRules? {rules : Rules}
    (hrules : ∀ r ∈ rules, r.replacement.length ≤ r.ending.length) (p : Workpiece final) :
    ∃ q, applyRules? rules p = some q ∧ q.word = rules.apply p.word := by
  induction rules with
  | nil => exact ⟨p, rfl, rfl⟩
  | cons rule rules ih =>
    obtain ⟨hrule, hrules⟩ := List.forall_mem_cons.1 hrules
    rw [applyRules?, Rules.apply]
    split
    · rename_i stem hstem
      obtain ⟨q, hq, htests⟩ := ends?_of_before? hstem
      simp only [hq, htests.measure?_eq, Option.bind_eq_bind, Option.bind_some]
      split
      · rename_i hmeasure
        have htwo := two_le_of_measure hmeasure
        have hcut : IsCut p.word (stem ++ rule.replacement) :=
          isCut_replace hstem hrule (.inl (by omega))
        exact exists_exchange? htests hcut.1 (hcut.2.trans p.length_word_le)
      · exact ⟨q, rfl, htests.word⟩
    · rename_i hnone
      rw [ends?_of_lacks (before?_eq_none_iff.1 hnone)]
      exact ih hrules

/-- Step 2 goes by the letter before the last. -/
theorem exists_unpairSuffix? (h : unpairSuffix p.word = some v) :
    ∃ q, p.unpairSuffix? = some q ∧ q.word = v := by
  obtain ⟨c, hc, h⟩ := Option.bind_eq_some_iff.1 h
  obtain rfl := Option.some.inj h
  rw [unpairSuffix?, p.letter?_wordEnd_pred, hc]
  exact exists_applyRules? (length_doubleRules c) p

/-- Step 3 goes by the last letter. -/
theorem exists_shortenSuffix? (h : shortenSuffix p.word = some v) :
    ∃ q, p.shortenSuffix? = some q ∧ q.word = v := by
  obtain ⟨c, hc, h⟩ := Option.bind_eq_some_iff.1 h
  obtain rfl := Option.some.inj h
  rw [shortenSuffix?, p.letter?_wordEnd, hc]
  exact exists_applyRules? (length_singleRules c) p

/-- The condition that `ion` has is told from the last letter of the stem, if it has one. -/
theorem Tests.mayGo?_eq {ending : Bytes} (hp : p.Tests w stem) : p.mayGo? ending =
    some (ending != utf8 "ion" || stem.getLast? == some 115 || stem.getLast? == some 116) := by
  obtain ⟨-, rfl, -⟩ := hp
  rw [mayGo?]
  split
  · rename_i hne
    rw [bne_iff_ne.2 hne]
    rfl
  rename_i heq
  rw [not_not.1 heq, bne_self_eq_false, Bool.false_or]
  have htested := p.length_tested
  split
  · have hnil : p.tested = [] := List.eq_nil_of_length_eq_zero (by omega)
    rw [hnil]
    rfl
  · obtain ⟨b, hb⟩ := exists_last? (w := p.tested) (by omega)
    have hlast : p.tested.getLast? = some b := hb
    rw [p.letter?_stemEnd, hb, hlast]
    rfl

/-- **Endings are looked up in place.** A stem that was under test to no effect is not asked for
again. -/
theorem exists_dropFirst? (endings : List Bytes) (p : Workpiece final) :
    ∃ q, dropFirst? endings p = some q ∧ q.word =
      match endings.findSome? (beforeBare? · p.word) with
      | some stem => if 1 < measure stem then stem else p.word
      | none => p.word := by
  induction endings generalizing p with
  | nil => exact ⟨p, rfl, rfl⟩
  | cons ending endings ih =>
    rw [dropFirst?, List.findSome?_cons, beforeBare?]
    rcases hbefore : before? ending p.word with - | stem
    · rw [ends?_of_lacks (before?_eq_none_iff.1 hbefore)]
      exact ih p
    · obtain ⟨q, hq, htests⟩ := ends?_of_before? hbefore
      simp only [hq, htests.mayGo?_eq, htests.measure?_eq, Option.filter_some,
        Option.bind_eq_bind, Option.bind_some]
      split
      · dsimp only
        split
        · rename_i hmeasure
          have htwo := two_le_of_measure (Nat.lt_of_succ_lt hmeasure)
          obtain ⟨r, hr, hresult⟩ := exists_endAt?_stemEnd htests (by omega)
          exact ⟨r, hr, hresult.word⟩
        · exact ⟨q, rfl, htests.word⟩
      · rw [← htests.word]
        exact ih q

/-- Step 4 takes the stem under test for the word. -/
theorem exists_dropSuffix? (h : dropSuffix p.word = some v) :
    ∃ q, p.dropSuffix? = some q ∧ q.word = v := by
  obtain ⟨c, hc, h⟩ := Option.bind_eq_some_iff.1 h
  obtain ⟨q, hq, hword⟩ := exists_dropFirst? (bareEndings c) p
  rw [dropSuffix?, p.letter?_wordEnd_pred, hc]
  refine ⟨q, hq, hword.trans ?_⟩
  rcases hfound : (bareEndings c).findSome? (beforeBare? · p.word) with - | stem
  · rw [hfound] at h
    exact Option.some.inj h
  · rw [hfound] at h
    exact Option.some.inj h

/-- The measure without a final `e` is the measure with it, so the stem that is under test then may
be longer than the word. -/
theorem exists_dropFinalE? (hp : p.Tests w w) (h : dropFinalE w = some v) :
    ∃ q, p.dropFinalE? = some q ∧ q.word = v ∧ measure q.tested = measure v := by
  obtain ⟨rfl, htested, -⟩ := id hp
  have hlt := p.wordEnd_lt
  have hshort : p.isShort? (p.wordEnd - 1) = some (endsShort p.word.dropLast) := by
    rw [p.isShort?_eq (by omega), p.upTo_pred hlt]
    rfl
  obtain ⟨c, hc, h⟩ := Option.bind_eq_some_iff.1 h
  rw [dropFinalE?, p.letter?_wordEnd, hc, hp.measure?_eq, hshort]
  simp only [Option.bind_eq_bind, Option.bind_some]
  split at h
  · rename_i hne
    obtain rfl := Option.some.inj h
    exact ⟨p, if_pos hne, rfl, congrArg measure htested⟩
  rename_i heq
  rw [if_neg heq]
  obtain rfl := not_not.1 heq
  have hmeasure : measure p.word = measure p.word.dropLast := by
    rw [measure_eq_runs, measure_eq_runs, ← runs_concat_vowel p.word.dropLast (b := 101) rfl,
      ← eq_concat_of_last? hc]
  obtain rfl := Option.some.inj h
  have hgoes (hm : 0 < measure p.word) : ∃ q, p.endAt? (p.wordEnd - 1) = some q ∧
      q.word = p.word.dropLast ∧ measure q.tested = measure p.word.dropLast := by
    obtain ⟨q, hq, hword, hsame⟩ := exists_endAt?_pred (two_le_of_measure hm)
    exact ⟨q, hq, hword, by rw [hsame, htested, hmeasure]⟩
  by_cases hmore : 1 < measure p.word
  · rw [if_pos hmore, if_pos (.inl hmore)]
    exact hgoes (Nat.lt_of_succ_lt hmore)
  rw [if_neg hmore]
  by_cases hone : measure p.word = 1
  · rw [if_pos hone]
    cases hends : endsShort p.word.dropLast with
    | true =>
      rw [if_pos rfl, if_neg (by simp [hone])]
      exact ⟨p, rfl, rfl, congrArg measure htested⟩
    | false =>
      rw [if_neg Bool.false_ne_true, if_pos (.inr ⟨hone, Bool.false_ne_true⟩)]
      exact hgoes (by omega)
  · rw [if_neg hone, if_neg fun h ↦ h.elim hmore fun h ↦ hone h.1]
    exact ⟨p, rfl, rfl, congrArg measure htested⟩

/-- The stem under test is then still that of step 5a, and the measure is the same. -/
theorem exists_singleFinalL? (htested : measure p.tested = measure p.word)
    (h : singleFinalL p.word = some v) : ∃ q, p.singleFinalL? = some q ∧ q.word = v := by
  have hdoubled : p.isDoubled? p.wordEnd = some (endsDoubled p.word) := p.isDoubled?_eq p.wordEnd_lt
  obtain ⟨c, hc, h⟩ := Option.bind_eq_some_iff.1 h
  rw [singleFinalL?, p.letter?_wordEnd, hc, hdoubled, p.measure?_eq, htested]
  simp only [Option.bind_eq_bind, Option.bind_some]
  obtain rfl := Option.some.inj h
  split
  · rename_i hne
    exact ⟨p, rfl, (if_neg fun h ↦ hne h.1).symm⟩
  rename_i heq
  split
  · rename_i hnot
    exact ⟨p, rfl, (if_neg fun h ↦ by simp [h.2.1] at hnot).symm⟩
  rename_i hends
  have hends : endsDoubled p.word = true := by simpa using hends
  split
  · rename_i hmore
    obtain ⟨q, hq, hword, -⟩ := exists_endAt?_pred (two_le_of_endsDoubled hends)
    exact ⟨q, hq, hword.trans (if_pos ⟨not_not.1 heq, hends, hmore⟩).symm⟩
  · rename_i hfew
    exact ⟨p, rfl, (if_neg fun h ↦ hfew h.2.2).symm⟩

/-! ### All steps -/

/-- The word that each step leaves is the word that the next one finds. -/
theorem exists_derived? {w₄ w₅ w₆ w₇ : Bytes} (h₄ : unpairSuffix (finalY p.word) = some w₄)
    (h₅ : shortenSuffix w₄ = some w₅) (h₆ : dropSuffix w₅ = some w₆)
    (h₇ : dropFinalE w₆ = some w₇) (h : singleFinalL w₇ = some v) (htwo : 2 ≤ p.word.length) :
    ∃ q, p.derived? = some q ∧ q.word = v := by
  have hlength := p.length_word
  obtain ⟨p₃, hp₃, hword⟩ := exists_finalY? p
  rw [← hword] at h₄
  obtain ⟨p₄, hp₄, rfl⟩ := exists_unpairSuffix? h₄
  obtain ⟨p₅, hp₅, rfl⟩ := exists_shortenSuffix? h₅
  obtain ⟨p₆, hp₆, rfl⟩ := exists_dropSuffix? h₆
  obtain ⟨p', hp', htests⟩ := exists_testWord? p₆
  obtain ⟨p₇, hp₇, rfl, htested⟩ := exists_dropFinalE? htests h₇
  obtain ⟨q, hq, hresult⟩ := exists_singleFinalL? htested h
  refine ⟨q, ?_, hresult⟩
  rw [derived?, if_neg (by omega)]
  simp only [Option.bind_eq_bind, hp₃, hp₄, hp₅, hp₆, hp', hp₇, Option.bind_some, hq]

/-- A word is put into a buffer of its own, and what its length in 32 bits reaches is worked on.
What is not reached stands behind the end. -/
theorem exists_start (hw : 0 < (reached w).length) : ∃ last, lastPlace? w = some last ∧
    ∃ p, of? last.toNat w last 0 = some p ∧ p.word = reached w := by
  have hle := toInt_length32_le w
  have hlt := (length32 w).toInt_lt
  rw [length_reached] at hw
  have hne : length32 w ≠ Int32.minValue := by
    intro hmin
    rw [hmin] at hw
    exact absurd hw (by decide)
  have hplace : lastPlace? w = some ((length32 w).toInt - 1) := if_neg hne
  generalize hlast : (length32 w).toInt - 1 = last at hplace
  have hend : 0 ≤ last ∧ last ≤ last.toNat ∧ last < w.length := ⟨by omega, by omega, by omega⟩
  have htested : (-1 : Int) ≤ 0 ∧ (0 : Int) ≤ last.toNat ∧ (0 : Int) < w.length :=
    ⟨by omega, by omega, by omega⟩
  refine ⟨last, hplace, _, dif_pos ⟨hend, htested, by omega⟩, ?_⟩
  show w.take (last + 1).toNat = w.take (length32 w).toInt.toNat
  rw [← hlast, Int.sub_add_cancel]

/-- The result is read off the buffer. -/
theorem slice?_word (p : Workpiece final) : p.slice? 0 (p.wordEnd + 1).toNat = some p.word := by
  have hlt := p.wordEnd_lt
  exact if_pos ⟨Int.le_refl 0, by omega⟩

/-- **Every word of which something is read can be worked on in place**, and what comes of it is
what the steps make of that. -/
theorem run?_eq_of_pos (hw : 0 < (reached w).length) : run? w = reduce? (reached w) := by
  obtain ⟨v, hv⟩ := exists_reduce? hw
  obtain ⟨w₁, h₁, h⟩ := Option.bind_eq_some_iff.1 hv
  obtain ⟨w₂, h₂, h⟩ := Option.bind_eq_some_iff.1 h
  obtain ⟨last, hlast, p, hp, hword⟩ := exists_start hw
  rw [← hword] at h₁
  obtain ⟨p₁, hp₁, rfl⟩ := exists_plural? h₁
  obtain ⟨p₂, hp₂, rfl⟩ := exists_inflected? h₂
  have hlength := p₂.length_word
  have hderived : ∃ q, p₂.derived? = some q ∧ q.word = v := by
    split at h
    · exact ⟨p₂, if_pos (by omega), Option.some.inj h⟩
    · obtain ⟨w₄, h₄, h⟩ := Option.bind_eq_some_iff.1 h
      obtain ⟨w₅, h₅, h⟩ := Option.bind_eq_some_iff.1 h
      obtain ⟨w₆, h₆, h⟩ := Option.bind_eq_some_iff.1 h
      obtain ⟨w₇, h₇, h⟩ := Option.bind_eq_some_iff.1 h
      exact exists_derived? h₄ h₅ h₆ h₇ h (by omega)
  obtain ⟨q, hq, rfl⟩ := hderived
  simp only [run?, Option.bind_eq_bind, hlast, hp, hp₁, hp₂, hq, Option.bind_some, slice?_word, hv]

/-- If nothing is read of a word, the work asks for a letter that is not there, or cannot begin. -/
theorem run?_eq_none (hw : reached w = []) : run? w = none := by
  have hlength := length_reached w
  rw [hw, List.length_nil] at hlength
  rw [run?, lastPlace?]
  split
  · rfl
  · have hnone : of? ((length32 w).toInt - 1).toNat w ((length32 w).toInt - 1) 0 = none :=
      dif_neg (by omega)
    rw [Option.bind_eq_bind, Option.bind_some, hnone]
    rfl

end Workpiece

/-- **A stem can be made in place**, whatever the word is. -/
theorem stemInPlace?_eq (w : Bytes) : stemInPlace? w = stem? w := by
  rw [stemInPlace?, stem?]
  split
  · rfl
  rcases hreached : reached w with - | ⟨b, rest⟩
  · rw [Workpiece.run?_eq_none hreached, reduce?_nil]
  · rw [Workpiece.run?_eq_of_pos (hreached ▸ Nat.succ_pos _), hreached]

/-- **A stem is made in place safely**, as long as the length of the word is a word of 32 bits. No
letter is read that the buffer does not have. At every moment the word has a letter and ends no
later than it did in the beginning, and the stem under test ends in the buffer or, if it has no
letters, right before it; otherwise there would be no result, but there is one, and it is the stem.
The stem is not empty and not longer than the word, and it is one of the letters `a` to `z` if the
word is. -/
theorem stemInPlace?_isSafe_iff (n : Nat) :
    (∀ {final : Nat} (p : Workpiece final), p.IsGuarded) ∧ (∀ w, stemInPlace? w = stem? w) ∧
    ((∀ w, w ≠ [] → w.length ≤ n → ∃ v, stemInPlace? w = some v ∧ v ≠ [] ∧
      v.length ≤ w.length ∧ (IsLetters w → IsLetters v)) ↔ n < 2 ^ 31) := by
  refine ⟨Workpiece.isGuarded, stemInPlace?_eq, fun h ↦ ?_, fun hn w hw hle ↦ ?_⟩
  · by_contra hn
    obtain ⟨w, hlength, hletters⟩ := exists_letters (2 ^ 31)
    obtain ⟨hnone, -⟩ := stem?_eq_none hletters hlength
    have hne : w ≠ [] := List.ne_nil_of_length_pos (by omega)
    obtain ⟨v, hv, -⟩ := h w hne (by omega)
    rw [stemInPlace?_eq, hnone] at hv
    cases hv
  · have hpos := List.length_pos_iff.2 hw
    obtain ⟨v, hv⟩ := exists_stem? hpos (by omega)
    obtain ⟨hne, hlength⟩ := isCut_stem? hpos hv
    exact ⟨v, (stemInPlace?_eq w).trans hv, List.length_pos_iff.1 hne, hlength,
      fun hletters ↦ hletters.stem? hv⟩

/-- The `e` goes and then one `l`, while the stem under test is all of the word. -/
example : stemInPlace? (utf8 "gazelle") = some (utf8 "gazel") := by
  decide +kernel

end Concordance.English
