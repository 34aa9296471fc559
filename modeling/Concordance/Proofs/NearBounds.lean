import Concordance.Proofs.NearTerms
import Concordance.Proofs.RoundTrip
import Concordance.Proofs.SoundMatches

/-!
# What the bound does

A wider bound should find all that a narrower one finds, and it does, with one exception
(`expandNear_grows_iff`). A bound of zero finds a term that is in the index whatever its bytes are,
and a bound of one refuses it if the bytes that begin a character in it and the characters that are
read of it differ in number by more than one. In well-formed terms the numbers are equal, and only a
file can bring in others.

A bound is a word of 32 bits, and what stands for every distance beyond it is one more than it. For
the greatest bound that is the least of all words, which is then the distance of every term but the
one asked for (`near_distances`), and the exponent of its weight.
-/

namespace Concordance

/-! ### Wider bounds -/

namespace Index

variable {ix : Index} {term : Bytes} {bound : Int32} {narrow wide : ByteSet}

theorem exists_expandNear (ix : Index) (term : Bytes) (hnonneg : 0 ≤ bound.toInt) :
    ∃ terms, ix.expandNear term bound false = .ok terms :=
  have ⟨_, hnear⟩ := exists_near_of_nonneg ix term hnonneg
  ⟨_, expandNear_eq hnear⟩

/-- What a term is expanded to with a bound of one or more. -/
theorem mem_expandNear_of_pos (hpos : 0 < bound.toInt) (hbound : bound.toInt < 2 ^ 31 - 1)
    (h : ix.expandNear term bound false = .ok narrow) {t : Bytes} : t ∈ narrow.toList ↔
      t ∈ ix.terms.keys ∧ Fuzzy.lengthGap term t ≤ bound.toInt ∧
        (EditDistance.distance (Utf8.decodeLossy term) (Utf8.decodeLossy t) : Int) ≤
          bound.toInt := by
  rw [expandNear_eq (near_of_pos ix term hpos)] at h
  rw [← Except.ok.inj h, ByteSet.mem_toList_ofList, mem_terms_scan hpos.le hbound]

/-- What a term is expanded to with a bound of zero. -/
theorem mem_expandNear_zero (h : ix.expandNear term 0 false = .ok narrow) {t : Bytes} :
    t ∈ narrow.toList ↔ t = term ∧ ix.hasTerm term = true := by
  rw [expandNear_eq (near_zero ix term false)] at h
  rw [← Except.ok.inj h, ByteSet.mem_toList_ofList]
  split
  · rename_i hhas
    simp [hhas]
  · rename_i hhas
    simp [hhas]

/-- From one on a wider bound finds no less. -/
theorem expandNear_grows_of_pos (hpos : 0 < bound.toInt) (hbound : bound.toInt < 2 ^ 31 - 2)
    (hnarrow : ix.expandNear term bound false = .ok narrow)
    (hwide : ix.expandNear term (bound + 1) false = .ok wide) :
    ∀ t ∈ narrow.toList, t ∈ wide.toList := by
  have hnext := toInt_add_one (n := bound) (by omega)
  intro t ht
  obtain ⟨hmem, hgap, hdistance⟩ := (mem_expandNear_of_pos hpos (by omega) hnarrow).1 ht
  exact (mem_expandNear_of_pos (by omega) (by omega) hwide).2 ⟨hmem, by omega, by omega⟩

/-- With a bound of zero only the term itself is found. It is at no distance from itself, but a
bound of one looks at its length first. -/
theorem expandNear_grows_of_zero_iff (hnarrow : ix.expandNear term 0 false = .ok narrow)
    (hwide : ix.expandNear term 1 false = .ok wide) : (∀ t ∈ narrow.toList, t ∈ wide.toList) ↔
      (ix.hasTerm term = true → Fuzzy.lengthGap term term ≤ 1) := by
  have hmem : ∀ t, t ∈ wide.toList ↔ _ :=
    fun t ↦ mem_expandNear_of_pos (by decide) (by decide) hwide
  constructor
  · intro hgrows hhas
    have hterm := (hmem term).1 (hgrows term ((mem_expandNear_zero hnarrow).2 ⟨rfl, hhas⟩))
    exact Int.ofNat_le.1 hterm.2.1
  · intro hgap t ht
    obtain ⟨rfl, hhas⟩ := (mem_expandNear_zero hnarrow).1 ht
    refine (hmem t).2 ⟨Dict.contains_iff.1 hhas, Int.ofNat_le.2 (hgap hhas), ?_⟩
    rw [EditDistance.distance_self]
    decide

end Index

/-! ### The greatest bound -/

/-- The distance that a near term is given: that of the characters, unless one more than the
bound is no number of 32 bits and takes its place. The term that is asked for is not compared
with itself. -/
def Fuzzy.givenDistance (term : Bytes) (bound : Int32) (candidate : Bytes) : Int :=
  if candidate = term ∨ bound.toInt < 2 ^ 31 - 1 then
    EditDistance.distance (Utf8.decodeLossy term) (Utf8.decodeLossy candidate)
  else -2 ^ 31

namespace Fuzzy

variable {term candidate : Bytes} {bound : Int32} {m : NearTerm}

theorem givenDistance_self (term : Bytes) (bound : Int32) : givenDistance term bound term = 0 := by
  rw [givenDistance, if_pos (.inl rfl), EditDistance.distance_self]
  rfl

theorem givenDistance_nonneg_iff :
    0 ≤ givenDistance term bound candidate ↔ candidate = term ∨ bound.toInt < 2 ^ 31 - 1 := by
  rw [givenDistance]
  split
  · rename_i hreal
    exact ⟨fun _ ↦ hreal, fun _ ↦ Int.natCast_nonneg _⟩
  · rename_i hreal
    exact ⟨fun h ↦ absurd h (by decide), fun h ↦ absurd h hreal⟩

/-- **The distance of a near term**, whatever the bound. -/
theorem distance_of_near? (hnonneg : 0 ≤ bound.toInt)
    (hnear : near? term bound candidate = some m) :
    m.distance.toInt ≤ bound.toInt ∧ m.distance.toInt = givenDistance term bound m.term := by
  obtain ⟨-, hle, hm⟩ := near?_eq_some_iff.1 hnear
  obtain ⟨hterm, hdistance⟩ := eq_mk_iff.1 hm
  refine ⟨hle, ?_⟩
  by_cases hbound : bound.toInt < 2 ^ 31 - 1
  · rw [givenDistance, if_pos (.inr hbound), hterm]
    exact ((near?_eq_some_iff_distance hnonneg hbound).1 hnear).2.2.2
  by_cases hself : candidate = term
  · rw [hdistance, if_pos hself, hterm, hself, givenDistance_self, Int32.toInt_zero]
  · -- the bound is the greatest, and what stands for a distance beyond it is the least number
    have hgreatest : bound.toInt = 2 ^ 31 - 1 := by
      have hhigh := bound.toInt_lt
      omega
    rw [hdistance, if_neg hself, hterm, givenDistance, if_neg (not_or.2 ⟨hself, hbound⟩),
      EditDistance.toInt_bounded_of_greatest _ _ hgreatest]

end Fuzzy

/-- All terms that are found near a term are given their distance. -/
theorem Index.distance_of_mem_near {ix : Index} {term : Bytes} {bound : Int32} {cancelled : Bool}
    {found : List NearTerm} (hnonneg : 0 ≤ bound.toInt)
    (hnear : ix.near term bound cancelled = .ok found) :
    ∀ m ∈ found, m.distance.toInt ≤ bound.toInt ∧
      m.distance.toInt = Fuzzy.givenDistance term bound m.term := by
  rw [near] at hnear
  split at hnear
  · cases hnear
  split at hnear
  · -- the term itself
    intro m hm
    rw [← Except.ok.inj hnear] at hm
    split at hm
    · obtain rfl := List.mem_singleton.1 hm
      exact ⟨hnonneg, (Fuzzy.givenDistance_self term bound).symm⟩
    · exact absurd hm List.not_mem_nil
  split at hnear
  · cases hnear
  · intro m hm
    rw [← Except.ok.inj hnear, List.mem_filterMap] at hm
    obtain ⟨candidate, -, hcandidate⟩ := hm
    exact Fuzzy.distance_of_near? hnonneg hcandidate

namespace Searcher

/-! ### The exponents of the weights -/

theorem greater_eq_or (a b : Float) : greater a b = a ∨ greater a b = b := by
  rw [greater]
  split
  · exact .inr rfl
  · exact .inl rfl

section Raise

variable {p : Bytes → Float → Prop} (hzero : ∀ k, p k 0)

include hzero

/-- What holds of the weights of a table, of a new one and of zero, which a term has before it is
reached, holds of them after the new one has been taken into account. -/
theorem forall_find?_raise {weights : Dict Float} {term : Bytes} {weight : Float}
    (hweights : ∀ k w, weights.find? k = some w → p k w) (hnew : p term weight) :
    ∀ k w, (raise weights term weight).find? k = some w → p k w := by
  intro k w hw
  rw [raise, Dict.find?_insert] at hw
  split at hw
  · rename_i hk
    subst hk
    rw [← Option.some.inj hw]
    rcases greater_eq_or ((weights.find? term).getD 0) weight with heq | heq
    · rw [heq]
      rcases hold : weights.find? term with _ | old
      · exact hzero term
      · exact hweights term old hold
    · rwa [heq]
  · exact hweights k w hw

theorem forall_find?_foldl_raise {α : Type} {l : List α} {term : α → Bytes} {weight : α → Float}
    {weights : Dict Float} (hweights : ∀ k w, weights.find? k = some w → p k w)
    (hnew : ∀ x ∈ l, p (term x) (weight x)) :
    ∀ k w, (l.foldl (fun weights x ↦ raise weights (term x) (weight x)) weights).find? k = some w →
      p k w := by
  induction l generalizing weights with
  | nil => exact hweights
  | cons x l ih =>
    obtain ⟨hx, hl⟩ := List.forall_mem_cons.1 hnew
    exact ih (forall_find?_raise hzero hweights hx) hl

end Raise

/-- A weight that a term can have for being near one of the given terms: its exponent is the
distance that the term is given from it. Before any of them is looked at the weight is zero. -/
def IsNearWeight (s : Searcher) (o : SearchOptions) (terms : List Bytes) (k : Bytes) (w : Float) :
    Prop :=
  w = 0 ∨ ∃ t ∈ terms, ∃ d : Int32, w = s.decay ^ d.toFloat ∧ d.toInt ≤ o.maxDistance.toInt ∧
    d.toInt = Fuzzy.givenDistance t o.maxDistance k

variable {s : Searcher} {o : SearchOptions} {weights : Dict Float}

/-- The weights of the terms near several. -/
theorem isNearWeight_of_nearWeights {terms : List Bytes} (hnonneg : 0 ≤ o.maxDistance.toInt)
    (hweights : s.nearWeights o terms = .ok weights) :
    ∀ k w, weights.find? k = some w → s.IsNearWeight o terms k w := by
  refine Passes.inv_of_foldlM
    (p := fun weights ↦ ∀ k w, Dict.find? weights k = some w → s.IsNearWeight o terms k w)
    (fun t ht weights next hold hstep ↦ ?_) (fun k w hw ↦ by cases hw) hweights
  obtain ⟨found, hfound, hnext⟩ := Passes.bind_eq_ok_iff.1 hstep
  rw [← Except.ok.inj hnext]
  refine forall_find?_foldl_raise (fun _ ↦ .inl rfl) hold fun m hm ↦ ?_
  exact .inr ⟨t, ht, m.distance, rfl, Index.distance_of_mem_near hnonneg hfound m hm⟩

/-- **Where a weight comes from**: a term that stands for another is a synonym of it, with the
weight one, or near a synonym. -/
theorem isNearWeight_of_expansion {term : Bytes} (hnonneg : 0 ≤ o.maxDistance.toInt)
    (hweights : s.expansion o term = .ok weights) :
    ∀ k w, weights.find? k = some w →
      w = 1 ∨ s.IsNearWeight o (s.synonyms.expand term).toList k w := by
  have hexact : ∀ k w,
      (Dict.ofList ((s.synonyms.expand term).toList.map fun t ↦
        (t, (1 : Float)))).find? k = some w →
        w = 1 ∨ s.IsNearWeight o (s.synonyms.expand term).toList k w := by
    intro k w hw
    have hnodup : ((s.synonyms.expand term).toList.map fun t ↦ t).Nodup :=
      (List.map_id' _).symm ▸ (ByteSet.toList_ascending _).imp Bytes.ne_of_lt
    rw [Dict.find?_ofList (by rwa [List.map_map]), List.mem_map] at hw
    obtain ⟨t, -, heq⟩ := hw
    exact .inl (Prod.mk.inj heq).2.symm
  rw [expansion] at hweights
  split at hweights
  · obtain ⟨near, hnear, hnext⟩ := Passes.bind_eq_ok_iff.1 hweights
    rw [← Except.ok.inj hnext]
    refine forall_find?_foldl_raise (fun _ ↦ .inr (.inl rfl)) hexact fun e he ↦ .inr ?_
    exact isNearWeight_of_nearWeights hnonneg hnear e.1 e.2 (Dict.find?_eq_some_iff.2 he)
  · rw [← Except.ok.inj hweights]
    exact hexact

end Searcher

end Concordance
