import Concordance.Proofs.NearTerms

/-!
# Exact search with words of 32 bits

The terms near a term are found with signed words of 32 bits, and these last for terms of fewer than
`2 ^ 31 - 1` bytes. Then they do what natural numbers do (`near32?_eq`), and in an index of
well-formed terms the terms within the bound are found, each with its distance. Two terms of one
byte more may not be compared at all, since no row of the table can be counted out
(`near32?_exact_iff`).
-/

namespace Concordance

/-! ### One term -/

namespace Fuzzy

variable {term candidate : Bytes} {bound : Int32}

/-- All characters of a term are read if it is not too long. -/
theorem chars32_of_lt (h : term.length < 2 ^ 31) : chars32 term = Utf8.decodeLossy term := by
  rw [chars32, reached_of_lt h]

/-- **Words of 32 bits do what natural numbers do** with terms that are not too long. -/
theorem near32?_eq (hshort : term.length < 2 ^ 31 - 1) (hshort' : candidate.length < 2 ^ 31 - 1)
    (hbound : bound.toInt < 2 ^ 31 - 1) :
    near32? term bound candidate = some (near? term bound candidate) := by
  have hlength := Utf8.length_decodeLossy_le term
  have hlength' := Utf8.length_decodeLossy_le candidate
  have hdistance := EditDistance.bounded?_eq (N := Int32) (a := Utf8.decodeLossy term)
    (b := Utf8.decodeLossy candidate) (fun k hk ↦ Counter.has_int32_iff.2 (by omega)) hbound
  have hsame : distance32? term bound candidate = some (distance? term bound candidate) := by
    rw [distance32?, chars32_of_lt (by omega), chars32_of_lt (by omega), hdistance, distance?,
      apply_ite some, apply_ite some]
    rfl
  rw [near32?, hsame]
  rfl

theorem length_chars32_of_ascii (hascii : ∀ b ∈ term, b.toNat < 0x80)
    (hlt : term.length < 2 ^ 31) : (chars32 term).length = term.length := by
  rw [chars32_of_lt hlt, Utf8.decodeLossy_of_ascii hascii, List.length_map]

/-- Two terms of as many letters as the greatest word of 32 bits are not compared: a row of the
table has one cell more. -/
theorem near32?_eq_none (hterm : ∀ b ∈ term, b.toNat < 0x80)
    (hcandidate : ∀ b ∈ candidate, b.toNat < 0x80) (hne : candidate ≠ term)
    (hlength : term.length = 2 ^ 31 - 1) (hlength' : candidate.length = 2 ^ 31 - 1)
    (hnonneg : 0 ≤ bound.toInt) : near32? term bound candidate = none := by
  have hchars := length_chars32_of_ascii hterm (by omega)
  have hchars' := length_chars32_of_ascii hcandidate (by omega)
  have hlead : Utf8.leadCount candidate = (chars32 candidate).length := by
    rw [Utf8.leadCount_eq (Utf8.isValid_of_ascii hcandidate), chars32_of_lt (by omega)]
  have hcells : ¬ Counter.Has Int32 ((chars32 candidate).length + 1) := by
    rw [Counter.has_int32_iff]
    omega
  have hnone : EditDistance.bounded? Int32 (chars32 term) (chars32 candidate) bound = none :=
    EditDistance.bounded?_eq_none (by omega) hcells
  rw [near32?, distance32?, if_neg (by omega), if_neg hne, hnone]
  rfl

end Fuzzy

namespace Index

/-! ### The scan -/

variable {ix : Index} {term : Bytes} {bound : Int32}

/-- With words of 32 bits a scan finds what it finds with natural numbers, if no term is too
long. -/
theorem scan32?_eq (hterms : ∀ t ∈ ix.terms.keys, t.length < 2 ^ 31 - 1)
    (hshort : term.length < 2 ^ 31 - 1) (hbound : bound.toInt < 2 ^ 31 - 1) :
    ix.scan32? term bound = some (ix.scan term bound) := by
  have hall : ix.terms.keys.mapM (Fuzzy.near32? term bound) =
      some (ix.terms.keys.map (Fuzzy.near? term bound)) :=
    (Passes.mapM_congr fun t ht ↦ Fuzzy.near32?_eq hshort (hterms t ht) hbound).trans
      List.mapM_pure
  rw [scan32?, hall]
  show some ((ix.terms.keys.map (Fuzzy.near? term bound)).filterMap id) = _
  rw [List.filterMap_map]
  rfl

/-- A scan has no result if one comparison has none. -/
theorem scan32?_eq_none {t : Bytes} (hmem : t ∈ ix.terms.keys)
    (hnone : Fuzzy.near32? term bound t = none) : ix.scan32? term bound = none := by
  rw [scan32?, Passes.mapM_eq_none_iff.2 ⟨t, hmem, hnone⟩]
  rfl

/-- Only a bound above zero is answered by a scan. -/
theorem near32?_of_pos (hpos : 0 < bound.toInt) :
    ix.near32? term bound = (ix.scan32? term bound).map .ok := by
  have hneg : ¬ bound < 0 := by
    rw [Int32.lt_iff_toInt_lt]
    exact hpos.le.not_gt
  have hzero : bound ≠ 0 := by
    rintro rfl
    exact absurd hpos (by decide)
  rw [near32?, if_neg hneg, if_neg hzero]

theorem near32?_zero (ix : Index) (term : Bytes) :
    ix.near32? term 0 = some (ix.near term 0 false) := by
  rw [near_zero, near32?, if_neg (by decide), if_pos rfl]

/-- What it is for the terms near a term to be found exactly: there is a list in ascending order,
without repetition, of all terms of the index that are within the bound, each with its distance, and
this is what a scan finds, also if the bound is zero and no scan is made. The set of the terms is
what the term is expanded to. -/
def FindsExactly (ix : Index) (term : Bytes) (bound : Int32) : Prop :=
  ∃ found, ix.near32? term bound = some (.ok found) ∧
    found.Pairwise (fun m n ↦ m.term < n.term) ∧
    (∀ m, m ∈ found ↔ m.term ∈ ix.terms.keys ∧ m.distance.toInt ≤ bound.toInt ∧
      m.distance.toInt =
        EditDistance.distance (Utf8.decodeLossy term) (Utf8.decodeLossy m.term)) ∧
    ix.scan32? term bound = some found ∧
    ∃ terms, ix.expandNear32? term bound = some (.ok terms) ∧ terms.toList = found.map (·.term)

section Short

variable (hvalid : ix.HasValidTerms) (hterm : Utf8.isValid term = true)
  (hterms : ∀ t ∈ ix.terms.keys, t.length < 2 ^ 31 - 1) (hshort : term.length < 2 ^ 31 - 1)
  (hnonneg : 0 ≤ bound.toInt) (hbound : bound.toInt < 2 ^ 31 - 1)

include hvalid hterm hterms hshort hnonneg hbound

/-- **What is found with words of 32 bits is what a scan with natural numbers finds.** -/
theorem near32?_eq_scan : ix.near32? term bound = some (.ok (ix.scan term bound)) := by
  rcases toInt_pos_or_eq_zero hnonneg with hpos | rfl
  · rw [near32?_of_pos hpos, scan32?_eq hterms hshort hbound]
    rfl
  · rw [near32?_zero, near_eq_scan hvalid hterm hnonneg hbound]

/-- **With short terms the search is exact.** -/
theorem findsExactly : ix.FindsExactly term bound := by
  have hnear := near32?_eq_scan hvalid hterm hterms hshort hnonneg hbound
  have hascending := scan_ascending ix term bound
  refine ⟨ix.scan term bound, hnear, hascending, fun m ↦ mem_scan_iff hvalid hnonneg hbound,
    scan32?_eq hterms hshort hbound, .ofList ((ix.scan term bound).map (·.term)), ?_, ?_⟩
  · rw [expandNear32?, hnear]
    rfl
  · exact eq_of_ascending (ByteSet.toList_ascending _) (List.pairwise_map.2 hascending)
      fun t ↦ ByteSet.mem_toList_ofList

end Short

/-! ### Long terms -/

/-- Two terms of `2 ^ 31 - 1` letters that differ in one are within the distance 1 of each other,
and this is not found. -/
theorem exists_not_findsExactly : ∃ (ix : Index) (term : Bytes), ix.HasValidTerms ∧
    Utf8.isValid term = true ∧ (∀ t ∈ ix.terms.keys, t.length = 2 ^ 31 - 1) ∧
    term.length = 2 ^ 31 - 1 ∧ ¬ ix.FindsExactly term 1 := by
  obtain ⟨tail, htail, hascii⟩ :
      ∃ tail : Bytes, tail.length = 2 ^ 31 - 2 ∧ ∀ b ∈ tail, b.toNat < 0x80 :=
    ⟨List.replicate _ 97, List.length_replicate, fun b hb ↦ by
      rw [List.eq_of_mem_replicate hb]
      decide⟩
  have hlength : ∀ b : UInt8, (b :: tail).length = 2 ^ 31 - 1 := fun b ↦ by
    rw [List.length_cons]
    omega
  have hterm : ∀ b ∈ 97 :: tail, b.toNat < 0x80 := List.forall_mem_cons.2 ⟨by decide, hascii⟩
  have hcandidate : ∀ b ∈ 98 :: tail, b.toNat < 0x80 := List.forall_mem_cons.2 ⟨by decide, hascii⟩
  let ix : Index := ⟨.ofList [(98 :: tail, [])], ∅, 0, 0⟩
  have hkeys : ∀ t, t ∈ ix.terms.keys ↔ t = 98 :: tail := fun t ↦ by
    rw [Dict.mem_keys_ofList]
    simp
  refine ⟨ix, 97 :: tail, fun t ht ↦ ?_, Utf8.isValid_of_ascii hterm, fun t ht ↦ ?_, hlength 97, ?_⟩
  · rw [(hkeys t).1 ht]
    exact Utf8.isValid_of_ascii hcandidate
  · rw [(hkeys t).1 ht, hlength]
  · rintro ⟨found, hnear, -⟩
    have hnone : Fuzzy.near32? (97 :: tail) 1 (98 :: tail) = none :=
      Fuzzy.near32?_eq_none hterm hcandidate (by simp) (hlength 97) (hlength 98) (by decide)
    rw [near32?_of_pos (by decide), scan32?_eq_none ((hkeys _).2 rfl) hnone] at hnear
    cases hnear

/-- **The terms near a term are found exactly** in an index of well-formed terms, for a well-formed
term and a bound that leaves room for one more, as long as no term has more bytes than a signed word
of 32 bits can count one more of. For longer terms there may be no result. -/
theorem near32?_exact_iff (n : Nat) :
    (∀ (ix : Index) (term : Bytes) (bound : Int32), ix.HasValidTerms → Utf8.isValid term = true →
      (∀ t ∈ ix.terms.keys, t.length ≤ n) → term.length ≤ n → 0 ≤ bound.toInt →
        bound.toInt < 2 ^ 31 - 1 → ix.FindsExactly term bound) ↔ n < 2 ^ 31 - 1 := by
  constructor
  · intro h
    by_contra hn
    obtain ⟨ix, term, hvalid, hterm, hterms, hlength, hnot⟩ := exists_not_findsExactly
    exact hnot (h ix term 1 hvalid hterm (fun t ht ↦ by rw [hterms t ht]; omega) (by omega)
      (by decide) (by decide))
  · intro hn ix term bound hvalid hterm hterms hlength hnonneg hbound
    exact findsExactly hvalid hterm (fun t ht ↦ (hterms t ht).trans_lt hn)
      (hlength.trans_lt hn) hnonneg hbound

/-- One character of two bytes in the place of another. -/
example :
    let ix : Index := ⟨.ofList [(utf8 "hat", []), (utf8 "ёжик", [])], ∅, 0, 0⟩
    ix.near32? (utf8 "ежик") 1 = some (.ok [⟨utf8 "ёжик", 1⟩]) := by
  decide

end Index

end Concordance
