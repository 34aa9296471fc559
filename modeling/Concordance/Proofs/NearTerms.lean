import Concordance.Fuzzy
import Concordance.Proofs.Dict
import Concordance.Proofs.EditDistance
import Concordance.Proofs.Utf8
import Concordance.Proofs.ValidTerms

/-!
# Terms near a term

The terms near a term are found in one scan over the index, with three short cuts. A bound of zero
asks for the term itself and scans nothing; a term whose length differs by more than the bound is
refused unread, its length being counted in the bytes that begin a character; and a distance beyond
the bound is not computed to its end. Where terms are well-formed none of them can be told from the
result: the bytes that begin a character are then as many as the characters, and lengths differ by
no more than the distance (`lengthGap_le`), so what is found are the terms within the bound
(`mem_scan_iff`), also if the bound is zero (`near_eq_scan`).

Of terms that are not well-formed a scan finds those whose length, counted in that way, is within
the bound as well (`mem_terms_scan`).
-/

namespace Concordance

/-! ### One term -/

namespace Fuzzy

open EditDistance

variable {term candidate : Bytes} {bound : Int32} {m : NearTerm}

/-- By how much the bytes of a term that begin a character differ in number from the characters of
the term that it is compared with. -/
def lengthGap (term candidate : Bytes) : Nat :=
  ((Utf8.leadCount candidate : Int) - (Utf8.decodeLossy term).length).natAbs

/-- **A term is near** if its length and its distance are within the bound. Its distance to itself
is not computed. -/
theorem near?_eq_some_iff : near? term bound candidate = some m ↔
    lengthGap term candidate ≤ bound.toInt ∧ m.distance.toInt ≤ bound.toInt ∧
      m = ⟨candidate, if candidate = term then 0
        else bounded (Utf8.decodeLossy term) (Utf8.decodeLossy candidate) bound⟩ := by
  have hdistance : ∀ d, distance? term bound candidate = some d ↔
      lengthGap term candidate ≤ bound.toInt ∧
        d = if candidate = term then 0
          else bounded (Utf8.decodeLossy term) (Utf8.decodeLossy candidate) bound := by
    intro d
    rw [distance?, lengthGap, ← Int.not_lt]
    split
    · rename_i hfar
      exact ⟨nofun, fun h ↦ absurd hfar h.1⟩
    · rename_i hnear
      rw [← apply_ite some, Option.some.injEq]
      exact ⟨fun h ↦ ⟨hnear, h.symm⟩, fun h ↦ h.2.symm⟩
  simp only [near?, Option.map_eq_some_iff, Option.filter_eq_some_iff, decide_eq_true_eq, hdistance,
    Int32.le_iff_toInt_le]
  constructor
  · rintro ⟨d, ⟨⟨hgap, hd⟩, hle⟩, rfl⟩
    exact ⟨hgap, hle, by rw [hd]⟩
  · rintro ⟨hgap, hle, hm⟩
    exact ⟨m.distance, ⟨⟨hgap, by rw [hm]⟩, hle⟩, by rw [hm]⟩

theorem eq_mk_iff {d : Int32} : m = ⟨candidate, d⟩ ↔
    m.term = candidate ∧ m.distance.toInt = d.toInt := by
  cases m
  rw [NearTerm.mk.injEq, Int32.toInt_inj]

/-- **The distance of a near term is that of the characters**, if one more than the bound is still a
number of 32 bits. -/
theorem near?_eq_some_iff_distance (hnonneg : 0 ≤ bound.toInt) (hbound : bound.toInt < 2 ^ 31 - 1) :
    near? term bound candidate = some m ↔
      m.term = candidate ∧ lengthGap term candidate ≤ bound.toInt ∧
        m.distance.toInt ≤ bound.toInt ∧
        m.distance.toInt = distance (Utf8.decodeLossy term) (Utf8.decodeLossy candidate) := by
  have hgiven : (if candidate = term then 0
      else bounded (Utf8.decodeLossy term) (Utf8.decodeLossy candidate) bound).toInt =
        min (distance (Utf8.decodeLossy term) (Utf8.decodeLossy candidate) : Int)
          (bound.toInt + 1) := by
    split
    · rename_i hself
      rw [hself, distance_self, Int32.toInt_zero]
      omega
    · exact toInt_bounded _ _ hbound
  rw [near?_eq_some_iff, eq_mk_iff, hgiven]
  constructor
  · rintro ⟨hgap, hle, hterm, hmin⟩
    exact ⟨hterm, hgap, hle, by omega⟩
  · rintro ⟨hterm, hgap, hle, hdistance⟩
    exact ⟨hgap, hle, hterm, by omega⟩

/-- **A well-formed term is never refused for its length alone.** -/
theorem lengthGap_le (term : Bytes) (hvalid : Utf8.isValid candidate = true) :
    lengthGap term candidate ≤ distance (Utf8.decodeLossy term) (Utf8.decodeLossy candidate) := by
  have hlength := (alignment_distance (Utf8.decodeLossy term)
    (Utf8.decodeLossy candidate)).length_le
  rw [lengthGap, Utf8.leadCount_eq hvalid]
  omega

end Fuzzy

/-! ### The scan -/

namespace Index

variable {ix : Index} {term : Bytes} {bound : Int32}

/-- What a scan over all terms of an index finds near a term. -/
def scan (ix : Index) (term : Bytes) (bound : Int32) : List NearTerm :=
  ix.terms.keys.filterMap (Fuzzy.near? term bound)

theorem mem_scan {m : NearTerm} :
    m ∈ ix.scan term bound ↔ m.term ∈ ix.terms.keys ∧ Fuzzy.near? term bound m.term = some m := by
  rw [scan, List.mem_filterMap]
  constructor
  · rintro ⟨candidate, hmem, hnear⟩
    obtain rfl : m.term = candidate := by rw [(Fuzzy.near?_eq_some_iff.1 hnear).2.2]
    exact ⟨hmem, hnear⟩
  · rintro ⟨hmem, hnear⟩
    exact ⟨m.term, hmem, hnear⟩

/-- A scan keeps the order of the terms. -/
theorem scan_ascending (ix : Index) (term : Bytes) (bound : Int32) :
    (ix.scan term bound).Pairwise fun m n ↦ m.term < n.term := by
  refine ix.terms.keys_ascending.filterMap _ fun t u htu m hm n hn ↦ ?_
  rwa [(Fuzzy.near?_eq_some_iff.1 hm).2.2, (Fuzzy.near?_eq_some_iff.1 hn).2.2]

/-- **A scan finds the terms whose length and distance are within the bound.** -/
theorem mem_terms_scan (hnonneg : 0 ≤ bound.toInt) (hbound : bound.toInt < 2 ^ 31 - 1) {t : Bytes} :
    t ∈ (ix.scan term bound).map (·.term) ↔ t ∈ ix.terms.keys ∧
      Fuzzy.lengthGap term t ≤ bound.toInt ∧
        (EditDistance.distance (Utf8.decodeLossy term) (Utf8.decodeLossy t) : Int) ≤
          bound.toInt := by
  rw [List.mem_map]
  constructor
  · rintro ⟨m, hm, rfl⟩
    obtain ⟨hmem, hnear⟩ := mem_scan.1 hm
    obtain ⟨-, hgap, hle, hdistance⟩ := (Fuzzy.near?_eq_some_iff_distance hnonneg hbound).1 hnear
    exact ⟨hmem, hgap, hdistance ▸ hle⟩
  · rintro ⟨hmem, hgap, hle⟩
    generalize hd : EditDistance.distance (Utf8.decodeLossy term) (Utf8.decodeLossy t) = d at hle
    have hword : (Int32.ofNat d).toInt = d := Int32.toInt_ofNat_of_lt (by omega)
    refine ⟨⟨t, .ofNat d⟩, mem_scan.2 ⟨hmem, ?_⟩, rfl⟩
    refine (Fuzzy.near?_eq_some_iff_distance hnonneg hbound).2 ⟨rfl, hgap, ?_, ?_⟩
    · rwa [hword]
    · rw [hword, hd]

/-- A bound of zero is answered without a scan. -/
theorem near_zero (ix : Index) (term : Bytes) (cancelled : Bool) :
    ix.near term 0 cancelled = .ok (if ix.hasTerm term then [⟨term, 0⟩] else []) := by
  rw [near, if_neg (by decide), if_pos rfl]

/-- Any other bound is answered by the scan. -/
theorem near_of_pos (ix : Index) (term : Bytes) (hpos : 0 < bound.toInt) :
    ix.near term bound false = .ok (ix.scan term bound) := by
  have hneg : ¬ bound < 0 := by
    rw [Int32.lt_iff_toInt_lt]
    exact hpos.le.not_gt
  have hzero : bound ≠ 0 := by
    rintro rfl
    exact absurd hpos (by decide)
  rw [near, if_neg hneg, if_neg hzero, if_neg (by simp)]
  rfl

/-- Only a negative bound is refused. -/
theorem exists_near_of_nonneg (ix : Index) (term : Bytes) (hnonneg : 0 ≤ bound.toInt) :
    ∃ found, ix.near term bound false = .ok found := by
  rcases toInt_pos_or_eq_zero hnonneg with hpos | rfl
  · exact ⟨_, near_of_pos ix term hpos⟩
  · exact ⟨_, near_zero ix term false⟩

theorem expandNear_eq {found : List NearTerm} (h : ix.near term bound false = .ok found) :
    ix.expandNear term bound false = .ok (.ofList (found.map (·.term))) := by
  rw [expandNear, h]
  rfl

/-! ### Well-formed terms -/

section WellFormed

variable (hvalid : ix.HasValidTerms)

include hvalid

/-- **The terms near a term are the well-formed ones within the distance.** -/
theorem exists_near (term : Bytes) (hpos : 0 < bound.toInt) (hbound : bound.toInt < 2 ^ 31 - 1) :
    ∃ found, ix.near term bound false = .ok found ∧ ∀ t, t ∈ found.map (·.term) ↔
      t ∈ ix.terms.keys ∧
        (EditDistance.distance (Utf8.decodeLossy term) (Utf8.decodeLossy t) : Int) ≤
          bound.toInt := by
  refine ⟨ix.scan term bound, near_of_pos ix term hpos, fun t ↦ ?_⟩
  rw [mem_terms_scan hpos.le hbound]
  refine and_congr_right fun hmem ↦ and_iff_right_of_imp fun hle ↦ ?_
  have hgap := Fuzzy.lengthGap_le term (hvalid t hmem)
  omega

theorem mem_scan_iff (hnonneg : 0 ≤ bound.toInt) (hbound : bound.toInt < 2 ^ 31 - 1)
    {m : NearTerm} : m ∈ ix.scan term bound ↔ m.term ∈ ix.terms.keys ∧
      m.distance.toInt ≤ bound.toInt ∧ m.distance.toInt =
        EditDistance.distance (Utf8.decodeLossy term) (Utf8.decodeLossy m.term) := by
  rw [mem_scan, Fuzzy.near?_eq_some_iff_distance hnonneg hbound]
  refine and_congr_right fun hmem ↦ ⟨fun h ↦ h.2.2, fun h ↦ ⟨rfl, ?_, h⟩⟩
  have hgap := Fuzzy.lengthGap_le term (hvalid _ hmem)
  omega

/-- **A bound of zero is answered as a scan would answer it.** -/
theorem near_eq_scan (hterm : Utf8.isValid term = true) (hnonneg : 0 ≤ bound.toInt)
    (hbound : bound.toInt < 2 ^ 31 - 1) : ix.near term bound false = .ok (ix.scan term bound) := by
  rcases toInt_pos_or_eq_zero hnonneg with hpos | rfl
  · exact near_of_pos ix term hpos
  -- two lists in order, and only the term itself can be in either of them
  have horder : (if ix.hasTerm term then [⟨term, 0⟩] else [] : List NearTerm).Pairwise
      fun m n ↦ m.term < n.term := by
    split
    · exact List.pairwise_singleton _ _
    · exact .nil
  rw [near_zero, eq_of_ascending horder (scan_ascending ix term 0) fun m ↦ ?_]
  rw [mem_scan_iff hvalid hnonneg hbound, Int32.toInt_zero]
  constructor
  · intro hm
    split at hm
    · rename_i hhas
      obtain rfl := List.mem_singleton.1 hm
      refine ⟨Dict.contains_iff.1 hhas, Int.le_refl 0, ?_⟩
      rw [EditDistance.distance_self]
      rfl
    · exact absurd hm List.not_mem_nil
  · rintro ⟨hmem, hle, hdistance⟩
    have hsame : term = m.term := Utf8.eq_of_decodeLossy_eq hterm (hvalid _ hmem)
      (EditDistance.eq_of_distance_eq_zero (by omega))
    have hhas : ix.hasTerm term = true := Dict.contains_iff.2 (hsame ▸ hmem)
    rw [if_pos hhas, List.mem_singleton, Fuzzy.eq_mk_iff]
    exact ⟨hsame.symm, by rw [Int32.toInt_zero]; omega⟩

end WellFormed

end Index

end Concordance
