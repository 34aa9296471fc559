import Concordance.Proofs.Explanations
import Concordance.Proofs.PhraseMatches
import Mathlib.Data.Set.Card

/-!
# Joining the postings of a phrase

What a phrase search should find in an index can be said document by document, without a walk: a
phrase begins at a position of a field if each of its tokens stands there at its distance from the
first (`Index.BeginsAt`). A document is a match if the phrase begins somewhere in a field that
counts, its frequency is the number of these places (`Index.beginnings`), and its explanation has
the terms of the phrase for each field with such a place.

The join does the same in one pass over all lists, as long as the index is sound
(`Searcher.matchPhrase_joins`). Sound rows of positions ascend, so that a position can be looked up
in one by halving it again and again (`Positions.isFound_eq_contains`). Positions and distances are
added as words; if the sums fit, that makes no difference. A frequency is kept as a word too, so the
documents that are found are those whose number of places is not zero as a word.
-/

namespace Concordance

/-! ### Looking a position up -/

namespace Positions

/-- The first place from `first` on, among so many, whose position is not below the given one, if
the row ascends: the middle one tells in which half it is. -/
def lowerBound (ns : List UInt32) (n : UInt32) (first count : Nat) : Nat :=
  if count = 0 then first
  else if ns[first + count / 2]?.any (· < n) then
    lowerBound ns n (first + count / 2 + 1) (count - count / 2 - 1)
  else lowerBound ns n first (count / 2)
termination_by count

/-- Whether a position stands where it would have to. -/
def isFound (ns : List UInt32) (n : UInt32) : Bool :=
  ns[lowerBound ns n 0 ns.length]?.any fun m ↦ !(n < m)

variable {ns : List UInt32} {n : UInt32}

/-- In a row that ascends a place further on has a greater position. -/
theorem lt_of_getElem? (h : ns.Pairwise (· < ·)) {i j : Nat} {m m' : UInt32}
    (hi : ns[i]? = some m) (hj : ns[j]? = some m') (hij : i < j) : m < m' := by
  obtain ⟨hilt, rfl⟩ := List.getElem?_eq_some_iff.1 hi
  obtain ⟨hjlt, rfl⟩ := List.getElem?_eq_some_iff.1 hj
  exact List.pairwise_iff_getElem.1 h i j hilt hjlt hij

/-- **Halving a row finds where the smaller positions end**, if those before the part that is looked
at are smaller and those behind it are not. -/
theorem lt_iff_lt_lowerBound (h : ns.Pairwise (· < ·)) (n : UInt32) (first count : Nat)
    (hle : first + count ≤ ns.length) (hbefore : ∀ i m, ns[i]? = some m → i < first → m < n)
    (hbehind : ∀ i m, ns[i]? = some m → first + count ≤ i → ¬ m < n) :
    ∀ i m, ns[i]? = some m → (m < n ↔ i < lowerBound ns n first count) := by
  fun_induction lowerBound ns n first count with
  | case1 first =>
    intro i m hi
    refine ⟨fun hlt ↦ ?_, hbefore i m hi⟩
    by_contra hge
    exact hbehind i m hi (by omega) hlt
  | case2 first count hne hlt ih =>
    -- the middle is smaller, and with it all before
    simp only [Option.any_eq_true, decide_eq_true_eq] at hlt
    obtain ⟨mid, hmid, hlt⟩ := hlt
    refine ih (by omega) (fun i m hi hbelow ↦ ?_) fun i m hi habove ↦
      hbehind i m hi (by omega)
    rcases Nat.lt_or_eq_of_le (Nat.le_of_lt_succ hbelow) with hbelow | rfl
    · exact UInt32.lt_trans (lt_of_getElem? h hi hmid hbelow) hlt
    · rwa [Option.some.inj (hi.symm.trans hmid)]
  | case3 first count hne hnot ih =>
    -- the middle is not smaller, nor is any behind it
    obtain ⟨mid, hmid⟩ : ∃ mid, ns[first + count / 2]? = some mid :=
      ⟨_, List.getElem?_eq_getElem (by omega)⟩
    have hnot : ¬ mid < n := by simpa [hmid] using hnot
    refine ih (by omega) hbefore fun i m hi habove hlt ↦ ?_
    rcases Nat.lt_or_eq_of_le habove with habove | rfl
    · exact hnot (UInt32.lt_trans (lt_of_getElem? h hmid hi habove) hlt)
    · exact hnot (Option.some.inj (hmid.symm.trans hi) ▸ hlt)

/-- **Looking up by halving is looking through**, in a row that ascends. -/
theorem isFound_eq_contains (h : ns.Pairwise (· < ·)) (n : UInt32) :
    isFound ns n = ns.contains n := by
  have hspec := lt_iff_lt_lowerBound h n 0 ns.length (by omega) (fun _ _ _ hi ↦ by omega)
    fun i m hi hge ↦ by
      obtain ⟨hlt, -⟩ := List.getElem?_eq_some_iff.1 hi
      omega
  rw [Bool.eq_iff_iff, isFound, List.contains_iff_mem]
  simp only [Option.any_eq_true, Bool.not_eq_true', decide_eq_false_iff_not]
  constructor
  · rintro ⟨m, hm, hnot⟩
    have hge : ¬ m < n := fun hlt ↦ Nat.lt_irrefl _ ((hspec _ m hm).1 hlt)
    rw [UInt32.le_antisymm (UInt32.not_lt.1 hge) (UInt32.not_lt.1 hnot)]
    exact List.mem_of_getElem? hm
  · intro hmem
    obtain ⟨j, hj⟩ := List.mem_iff_getElem?.1 hmem
    -- the position is not before the bound, and none between is as great
    have hbound : ¬ j < lowerBound ns n 0 ns.length := fun hlt ↦
      UInt32.lt_irrefl n ((hspec j n hj).2 hlt)
    rcases Nat.lt_or_eq_of_le (Nat.le_of_not_lt hbound) with hlt | heq
    · obtain ⟨hlength, -⟩ := List.getElem?_eq_some_iff.1 hj
      obtain ⟨m, hm⟩ : ∃ m, ns[lowerBound ns n 0 ns.length]? = some m :=
        ⟨_, List.getElem?_eq_getElem (by omega)⟩
      exact absurd ((hspec _ _ hm).1 (lt_of_getElem? h hm hj hlt)) (Nat.lt_irrefl _)
    · exact ⟨n, heq ▸ hj, UInt32.lt_irrefl n⟩

end Positions

/-! ### What a phrase search should find -/

namespace Index

/-- A term stands at a position in a field of a document. -/
def StandsAt (ix : Index) (id field term : Bytes) (n : Nat) : Prop :=
  ∃ p ∈ ix.postings term, p.doc = id ∧
    ∃ h ∈ p.fields, h.field = field ∧ ∃ w ∈ h.positions, w.toNat = n

/-- A phrase begins at a position in a field of a document: each of its tokens stands there at its
distance from the first. -/
def BeginsAt (ix : Index) (first : Token) (others : List Token) (id field : Bytes) (n : Nat) :
    Prop :=
  ∀ t ∈ first :: others,
    ix.StandsAt id field t.text (n + (t.position.toNat - first.position.toNat))

/-- The places in the fields that count at which a phrase begins in a document. -/
def beginnings (ix : Index) (o : SearchOptions) (first : Token) (others : List Token)
    (id : Bytes) : Set (Bytes × Nat) :=
  {x | o.admits x.1 = true ∧ ix.BeginsAt first others id x.1 x.2}

variable {ix : Index} {first : Token} {others : List Token} {id field : Bytes}

theorem beginsAt_iff {n : Nat} : ix.BeginsAt first others id field n ↔
    ix.StandsAt id field first.text n ∧ ∀ t ∈ others,
      ix.StandsAt id field t.text (n + (t.position.toNat - first.position.toNat)) := by
  rw [BeginsAt, List.forall_mem_cons, Nat.sub_self, Nat.add_zero]

/-- The sums of positions and distances are words. -/
def SumsFit (ix : Index) (first : Token) (others : List Token) : Prop :=
  ∀ p ∈ ix.postings first.text, ∀ h ∈ p.fields, ∀ w ∈ h.positions, ∀ t ∈ others,
    w.toNat + (t.position.toNat - first.position.toNat) < 2 ^ 32

end Index

namespace Searcher

/-! ### One document -/

section Sound

variable {ix : Index} (h : ix.IsSound)

include h

/-- The positions of a term in a field are those of its posting. -/
theorem positionsIn_eq_some_iff {term field : Bytes} {p : Posting} (hp : p ∈ ix.postings term)
    {ns : List UInt32} : positionsIn field p = some ns ↔
      ∃ h ∈ p.fields, h.field = field ∧ h.positions = ns := by
  rw [positionsIn, Option.map_eq_some_iff]
  constructor
  · rintro ⟨hits, hfind, rfl⟩
    exact ⟨hits, List.mem_of_find?_eq_some hfind, by simpa using List.find?_some hfind, rfl⟩
  · rintro ⟨hits, hmem, rfl, rfl⟩
    obtain ⟨hits', hfind⟩ := Option.isSome_iff_exists.1
      (List.find?_isSome (p := (·.field == hits.field)).2 ⟨hits, hmem, beq_self_eq_true _⟩)
    have hfield : hits'.field = hits.field := by simpa using List.find?_some hfind
    -- a posting has a field once
    have heq := eq_of_key_eq (h.isSound_of_mem_postings hp).ordered
      (List.mem_of_find?_eq_some hfind) hmem hfield
    exact ⟨hits', hfind, by rw [heq]⟩

/-- A term stands where its posting of the document has a position. -/
theorem standsAt_iff {term field : Bytes} {p : Posting} (hp : p ∈ ix.postings term) {n : Nat} :
    ix.StandsAt p.doc field term n ↔
      ∃ ns, positionsIn field p = some ns ∧ ∃ w ∈ ns, w.toNat = n := by
  simp only [positionsIn_eq_some_iff h hp]
  constructor
  · rintro ⟨q, hq, hdoc, hits, hmem, hfield, hw⟩
    obtain rfl := eq_of_key_eq (h.postings_ascending term) hq hp hdoc
    exact ⟨_, ⟨hits, hmem, hfield, rfl⟩, hw⟩
  · rintro ⟨_, ⟨hits, hmem, hfield, rfl⟩, hw⟩
    exact ⟨p, hp, rfl, hits, hmem, hfield, hw⟩

end Sound

/-- Whether a phrase begins at a position of its first term, as the join finds out. -/
def isStart (field : Bytes) (others : List Posting) (offsets : List UInt32) (start : UInt32) :
    Bool :=
  (others.mapM (positionsIn field)).any fun positions ↦
    (positions.zip offsets).all fun (ps, offset) ↦ ps.contains (start + offset)

theorem isStart_nil {field : Bytes} {start : UInt32} : isStart field [] [] start = true := rfl

theorem isStart_cons {field : Bytes} {p : Posting} {ps : List Posting} {offset start : UInt32}
    {offsets : List UInt32} : isStart field (p :: ps) (offset :: offsets) start = true ↔
      (∃ ns, positionsIn field p = some ns ∧ start + offset ∈ ns) ∧
        isStart field ps offsets start = true := by
  rw [isStart, isStart, List.mapM_cons]
  cases positionsIn field p with
  | none => simp
  | some ns => cases ps.mapM (positionsIn field) <;> simp

theorem occurrences_eq_countP (lead : FieldHits) (others : List Posting) (offsets : List UInt32) :
    occurrences lead others offsets =
      lead.positions.countP (isStart lead.field others offsets) := by
  have hstart : isStart lead.field others offsets = fun start ↦
      (others.mapM (positionsIn lead.field)).any fun positions ↦
        (positions.zip offsets).all fun (ps, offset) ↦ ps.contains (start + offset) := rfl
  rw [occurrences, hstart]
  cases others.mapM (positionsIn lead.field) with
  | none => simp
  | some positions => rfl

/-- Adding words adds the numbers, if the sum fits. -/
theorem add_sub_mem_iff {ns : List UInt32} {w a b : UInt32} (hle : b ≤ a)
    (hfit : w.toNat + (a.toNat - b.toNat) < 2 ^ 32) :
    w + (a - b) ∈ ns ↔ ∃ v ∈ ns, v.toNat = w.toNat + (a.toNat - b.toNat) := by
  have hsum : (w + (a - b)).toNat = w.toNat + (a.toNat - b.toNat) := by
    rw [UInt32.toNat_add, UInt32.toNat_sub_of_le _ _ hle, Nat.mod_eq_of_lt hfit]
  constructor
  · exact fun hmem ↦ ⟨_, hmem, hsum⟩
  · rintro ⟨v, hv, heq⟩
    rwa [← UInt32.toNat_inj.1 (heq.trans hsum.symm)]

/-! ### The postings that the walk comes to -/

section Walk

variable {ix : Index} {o : SearchOptions} {first : Token} {others : List Token} {p : Posting}
  {ps : List Posting} (h : ix.IsSound) (hp : p ∈ ix.postings first.text)
  (hps : List.Forall₂ (fun t q ↦ (ix.postings t.text).of? p.doc = some q) others ps)
  (hfirst : ∀ t ∈ others, first.position ≤ t.position) (hsums : ix.SumsFit first others)

include h hps hfirst

/-- The test of a position is that the other tokens stand at their distances from it. -/
theorem isStart_iff {field : Bytes} {w : UInt32}
    (hfit : ∀ t ∈ others, w.toNat + (t.position.toNat - first.position.toNat) < 2 ^ 32) :
    isStart field ps (others.map (·.position - first.position)) w = true ↔ ∀ t ∈ others,
      ix.StandsAt p.doc field t.text (w.toNat + (t.position.toNat - first.position.toNat)) := by
  induction hps with
  | nil => exact iff_of_true isStart_nil nofun
  | @cons t q others ps hq _ ih =>
    obtain ⟨hle, hfirst⟩ := List.forall_mem_cons.1 hfirst
    obtain ⟨hlt, hfit⟩ := List.forall_mem_cons.1 hfit
    obtain ⟨hmem, hdoc⟩ := (of?_eq_some_iff (h.postings_ascending t.text)).1 hq
    rw [List.map_cons, isStart_cons, List.forall_mem_cons, ih hfirst hfit, ← hdoc,
      standsAt_iff h hmem]
    simp only [add_sub_mem_iff hle hlt]

include hp hsums

/-- **A phrase begins where the join counts a position.** -/
theorem mem_beginnings_iff {field : Bytes} {n : Nat} :
    (field, n) ∈ ix.beginnings o first others p.doc ↔ ∃ hits ∈ p.fields, hits.field = field ∧
      o.admits field = true ∧ ∃ w ∈ hits.positions,
        isStart field ps (others.map (·.position - first.position)) w = true ∧ w.toNat = n := by
  have hstart : ∀ hits ∈ p.fields, ∀ w ∈ hits.positions, ∀ field,
      isStart field ps (others.map (·.position - first.position)) w = true ↔ ∀ t ∈ others,
        ix.StandsAt p.doc field t.text (w.toNat + (t.position.toNat - first.position.toNat)) :=
    fun hits hmem w hw field ↦ isStart_iff h hps hfirst (hsums p hp hits hmem w hw)
  show o.admits field = true ∧ ix.BeginsAt first others p.doc field n ↔ _
  rw [Index.beginsAt_iff, standsAt_iff h hp]
  simp only [positionsIn_eq_some_iff h hp]
  constructor
  · rintro ⟨hadmits, ⟨_, ⟨hits, hmem, hfield, rfl⟩, w, hw, rfl⟩, hothers⟩
    exact ⟨hits, hmem, hfield, hadmits, w, hw, (hstart hits hmem w hw field).2 hothers, rfl⟩
  · rintro ⟨hits, hmem, hfield, hadmits, w, hw, hothers, rfl⟩
    exact ⟨hadmits, ⟨_, ⟨hits, hmem, hfield, rfl⟩, w, hw, rfl⟩,
      (hstart hits hmem w hw field).1 hothers⟩

/-- A field is counted if the phrase begins somewhere in it. -/
theorem exists_occurrences_pos_iff {field : Bytes} :
    (∃ hits ∈ p.fields, hits.field = field ∧ o.admits field = true ∧
      0 < occurrences hits ps (others.map (·.position - first.position))) ↔
        o.admits field = true ∧ ∃ n, ix.BeginsAt first others p.doc field n := by
  have hbegins : (o.admits field = true ∧ ∃ n, ix.BeginsAt first others p.doc field n) ↔
      ∃ n, (field, n) ∈ ix.beginnings o first others p.doc := exists_and_left.symm
  rw [hbegins]
  simp only [mem_beginnings_iff h hp hps hfirst hsums, occurrences_eq_countP, List.countP_pos_iff]
  constructor
  · rintro ⟨hits, hmem, rfl, hadmits, w, hw, hstart⟩
    exact ⟨w.toNat, hits, hmem, rfl, hadmits, w, hw, hstart, rfl⟩
  · rintro ⟨n, hits, hmem, rfl, hadmits, w, hw, hstart, rfl⟩
    exact ⟨hits, hmem, rfl, hadmits, w, hw, hstart⟩

/-- **The join counts each place once.** -/
theorem ncard_beginnings : (ix.beginnings o first others p.doc).ncard =
    ((phraseFields o p ps (others.map (·.position - first.position))).map (·.2)).sum := by
  set offsets := others.map (·.position - first.position) with hoffsets
  -- the places field by field, in order
  let places : List (Bytes × Nat) := (p.fields.filter fun hits ↦ o.admits hits.field).flatMap
    fun hits ↦ (hits.positions.filter (isStart hits.field ps offsets)).map fun w ↦
      (hits.field, w.toNat)
  have hsound := h.isSound_of_mem_postings hp
  have hset : ix.beginnings o first others p.doc = ↑places.toFinset := by
    ext ⟨field, n⟩
    rw [mem_beginnings_iff h hp hps hfirst hsums, ← hoffsets]
    simp only [places, List.coe_toFinset, Set.mem_ofPred_eq, List.mem_flatMap, List.mem_filter,
      List.mem_map, Prod.mk.injEq]
    constructor
    · rintro ⟨hits, hmem, rfl, hadmits, w, hw, hstart, rfl⟩
      exact ⟨hits, ⟨hmem, hadmits⟩, w, ⟨hw, hstart⟩, rfl, rfl⟩
    · rintro ⟨hits, ⟨hmem, hadmits⟩, w, ⟨hw, hstart⟩, rfl, rfl⟩
      exact ⟨hits, hmem, rfl, hadmits, w, hw, hstart, rfl⟩
  have hnodup : places.Nodup := by
    refine List.nodup_flatMap.2 ⟨fun hits hmem ↦ ?_, ?_⟩
    · obtain ⟨-, hascending⟩ := hsound.positions hits (List.mem_filter.1 hmem).1
      refine List.Nodup.map (fun w w' heq ↦ UInt32.toNat_inj.1 (Prod.mk.inj heq).2) ?_
      exact (hascending.imp UInt32.ne_of_lt).filter _
    · refine (hsound.ordered.filter _).imp fun {hits hits'} hlt x hx hx' ↦ ?_
      obtain ⟨w, -, rfl⟩ := List.mem_map.1 hx
      obtain ⟨w', -, heq⟩ := List.mem_map.1 hx'
      exact Bytes.ne_of_lt hlt (Prod.mk.inj heq).1.symm
  have hcounted : ∀ f : Bytes × Nat, ¬ decide (0 < f.2) = true → f.2 = 0 := fun f hf ↦ by
    simpa using hf
  rw [hset, Set.ncard_coe_finset, List.toFinset_card_of_nodup hnodup, List.length_flatMap,
    phraseFields, sum_map_filter fun f _ ↦ hcounted f, List.map_map]
  refine congrArg List.sum (List.map_congr_left fun hits _ ↦ ?_)
  rw [List.length_map, Function.comp_apply, occurrences_eq_countP, List.countP_eq_length_filter]

/-- The number of places is kept as a word. -/
theorem total_phraseFields_eq_ncard :
    total ((phraseFields o p ps (others.map (·.position - first.position))).map (·.2.toUInt32)) =
      (ix.beginnings o first others p.doc).ncard.toUInt32 := by
  rw [total_map_toUInt32 fun f : Bytes × Nat ↦ f.2, ncard_beginnings h hp hps hfirst hsums]

end Walk

/-- A document in which a phrase begins somewhere has a posting for each of its tokens. -/
theorem exists_postings_of_beginsAt {ix : Index} (h : ix.IsSound) {first : Token}
    {others : List Token} {id field : Bytes} {n : Nat}
    (hbegins : ix.BeginsAt first others id field n) : ∃ p ∈ ix.postings first.text, p.doc = id ∧
      ∃ ps, List.Forall₂ (fun t q ↦ (ix.postings t.text).of? p.doc = some q) others ps := by
  obtain ⟨⟨p, hp, rfl, -⟩, hothers⟩ := Index.beginsAt_iff.1 hbegins
  refine ⟨p, hp, rfl, Passes.exists_forall₂ fun t ht ↦ ?_⟩
  obtain ⟨q, hq, hdoc, -⟩ := hothers t ht
  exact ⟨q, (of?_eq_some_iff (h.postings_ascending t.text)).2 ⟨hq, hdoc⟩⟩

/-- **There is a place to count exactly if the phrase begins somewhere.** -/
theorem ncard_beginnings_pos_iff {ix : Index} (h : ix.IsSound) {o : SearchOptions} {first : Token}
    {others : List Token} (hfirst : ∀ t ∈ others, first.position ≤ t.position)
    (hsums : ix.SumsFit first others) {id : Bytes} :
    0 < (ix.beginnings o first others id).ncard ↔
      ∃ field n, o.admits field = true ∧ ix.BeginsAt first others id field n := by
  constructor
  · intro hpos
    obtain ⟨⟨field, n⟩, hadmits, hbegins⟩ :=
      Set.nonempty_of_ncard_ne_zero (Nat.pos_iff_ne_zero.1 hpos)
    exact ⟨field, n, hadmits, hbegins⟩
  · rintro ⟨field, n, hadmits, hbegins⟩
    obtain ⟨p, hp, rfl, ps, hps⟩ := exists_postings_of_beginsAt h hbegins
    obtain ⟨hits, hmem, rfl, hadmits, hpos⟩ :=
      (exists_occurrences_pos_iff h hp hps hfirst hsums).2 ⟨hadmits, n, hbegins⟩
    rw [ncard_beginnings h hp hps hfirst hsums, List.sum_pos_iff_exists_pos_nat]
    refine ⟨_, List.mem_map_of_mem (List.mem_filter.2 ⟨List.mem_map_of_mem
      (List.mem_filter.2 ⟨hmem, hadmits⟩), decide_eq_true hpos⟩), hpos⟩

/-! ### All documents -/

/-- The match of a document for a phrase: its score adds up those of the tokens, with the number of
places at which the phrase begins as their frequency, and its explanation, if there is one, has the
terms of the phrase for each field with such a place. -/
structure IsPhraseMatch (s : Searcher) (o : SearchOptions) (first : Token) (others : List Token)
    (m : Match) : Prop where
  score : ∃ d, s.documentStatistics o m.doc
      (s.index.beginnings o first others m.doc).ncard.toUInt32 = .ok d ∧
    d.frequency = (s.index.beginnings o first others m.doc).ncard.toUInt32 ∧
    m.score = (first :: others).foldl (fun sum t ↦
      sum + s.scorer.score (s.termStatistics (s.index.postings t.text)) d) 0
  explanation : ∀ field terms, Dict.find? m.explanation field = some terms ↔
    o.explain = true ∧
      (o.admits field = true ∧ ∃ n, s.index.BeginsAt first others m.doc field n) ∧
      terms = ByteSet.ofList ((first :: others).map (·.text))

/-- The statistics of a document have the frequency that they are made for. -/
theorem frequency_of_documentStatistics {s : Searcher} {o : SearchOptions} {id : Bytes}
    {n : UInt32} {d : DocumentStatistics} (h : s.documentStatistics o id n = .ok d) :
    d.frequency = n := by
  obtain ⟨length, -, hd⟩ := Passes.bind_eq_ok_iff.1 h
  rw [← Except.ok.inj hd]

/-- **Each match of a phrase is the match of its document.** -/
theorem isPhraseMatch_of_mem {s : Searcher} {o : SearchOptions} (h : s.index.IsSound)
    {first : Token} {others : List Token} (hfirst : ∀ t ∈ others, first.position ≤ t.position)
    (hsums : s.index.SumsFit first others) {ms : Matches} {m : Match}
    (hok : s.matchPhrase o (first :: others) = .ok ms) (hm : m ∈ ms) :
    s.IsPhraseMatch o first others m := by
  obtain ⟨x, hx, hmatch⟩ := exists_of_mem_matchPhrase hok hm
  obtain ⟨hp, hps⟩ := (mem_commonPostings_iff h.inOrder).1 hx
  have hterm : first.text ∈ (ByteSet.ofList ((first :: others).map (·.text))).toList :=
    ByteSet.mem_toList_ofList.2 List.mem_cons_self
  obtain ⟨⟨d, hd, hdoc, hscore⟩, hsaid⟩ := eq_of_matchPhrasePosting ⟨_, hterm⟩ hmatch
  rw [total_phraseFields_eq_ncard h hp hps hfirst hsums, ← hdoc] at hd
  refine ⟨⟨d, hd, frequency_of_documentStatistics hd, ?_⟩, fun field terms ↦ ?_⟩
  · rw [hscore, ← List.map_cons (f := fun t : Token ↦ s.index.postings t.text), List.foldl_map]
  · simp only [exists_occurrences_pos_iff h hp hps hfirst hsums, ← hdoc] at hsaid
    rw [hsaid.find?_eq_some_iff]
    constructor
    · rintro ⟨⟨term, hexplain, hfield, -⟩, hall⟩
      refine ⟨hexplain, hfield, ByteSet.ext_toList fun term ↦ (hall term).trans ?_⟩
      rw [and_iff_right hexplain, and_iff_right hfield]
    · rintro ⟨hexplain, hfield, rfl⟩
      refine ⟨⟨first.text, hexplain, hfield, hterm⟩, fun term ↦ ?_⟩
      rw [and_iff_right hexplain, and_iff_right hfield]

/-- **The join of postings is the naive check of each document.** On an index that passes its check,
let no token of a phrase stand before its first one, and let the sums of positions and distances be
words. Then the search for the phrase succeeds, and what it finds is in the order of documents and
as it should be: the documents are those whose number of places at which the phrase begins is not
zero as a word, so those in which it begins somewhere, if the number is a word; and each match is
the match of its document. A position may be looked up in the rows of the index by halving them. -/
theorem matchPhrase_joins {s : Searcher} {o : SearchOptions} (hcheck : s.index.check = .ok ())
    {first : Token} {others : List Token} (hfirst : ∀ t ∈ others, first.position ≤ t.position)
    (hsums : s.index.SumsFit first others) :
    ∃ ms, s.matchPhrase o (first :: others) = .ok ms ∧ ms.Ordered ∧
      (∀ id, id ∈ ms.map (·.doc) ↔ ¬ 2 ^ 32 ∣ (s.index.beginnings o first others id).ncard) ∧
      (∀ id, (s.index.beginnings o first others id).ncard < 2 ^ 32 → (id ∈ ms.map (·.doc) ↔
        ∃ field n, o.admits field = true ∧ s.index.BeginsAt first others id field n)) ∧
      (∀ m ∈ ms, s.IsPhraseMatch o first others m) ∧
      ∀ term, ∀ p ∈ s.index.postings term, ∀ hits ∈ p.fields, ∀ n,
        Positions.isFound hits.positions n = hits.positions.contains n := by
  have h := Index.check_eq_ok_iff.1 hcheck
  obtain ⟨ms, hok, hlists⟩ := lists_matchPhrase_walk (o := o) h.inOrder first others
  have hdocs : ∀ id, id ∈ ms.map (·.doc) ↔
      ¬ 2 ^ 32 ∣ (s.index.beginnings o first others id).ncard := by
    intro id
    rw [hlists.mem_iff, ← toUInt32_eq_zero_iff]
    constructor
    · rintro ⟨x, hx, rfl, hne⟩
      obtain ⟨hp, hps⟩ := (mem_commonPostings_iff h.inOrder).1 hx
      rwa [total_phraseFields_eq_ncard h hp hps hfirst hsums] at hne
    · intro hne
      -- a number that is not zero counts some place
      obtain ⟨field, n, -, hbegins⟩ := (ncard_beginnings_pos_iff h hfirst hsums).1
        (pos_of_not_dvd (toUInt32_eq_zero_iff.not.1 hne))
      obtain ⟨p, hp, rfl, ps, hps⟩ := exists_postings_of_beginsAt h hbegins
      refine ⟨(p, ps), (mem_commonPostings_iff h.inOrder).2 ⟨hp, hps⟩, rfl, ?_⟩
      rwa [total_phraseFields_eq_ncard h hp hps hfirst hsums]
  refine ⟨ms, hok, hlists.ordered, hdocs, fun id hlt ↦ ?_, fun m hm ↦ ?_,
    fun term p hp hits hmem n ↦
    Positions.isFound_eq_contains ((h.isSound_of_mem_postings hp).positions hits hmem).2 n⟩
  · rw [hdocs, ← ncard_beginnings_pos_iff h hfirst hsums, not_dvd_iff_pos hlt]
  · exact isPhraseMatch_of_mem h hfirst hsums hok hm

/-- A phrase with a token twice, in an index of two documents of which one has it, in two fields of
which one counts. -/
theorem matchPhrase_joins_repeated :
    let p : Posting := ⟨utf8 "1", [⟨utf8 "body", [0, 2]⟩, ⟨utf8 "title", [0, 2]⟩], 4⟩
    let p' : Posting := ⟨utf8 "2", [⟨utf8 "body", [1]⟩], 1⟩
    let r : Posting := ⟨utf8 "1", [⟨utf8 "body", [1, 3]⟩, ⟨utf8 "title", [1]⟩], 3⟩
    let r' : Posting := ⟨utf8 "2", [⟨utf8 "body", [0]⟩], 1⟩
    let d : DocumentEntry :=
      ⟨.ofList [(utf8 "body", 4), (utf8 "title", 3)], [utf8 "new", utf8 "york"]⟩
    let d' : DocumentEntry := ⟨.ofList [(utf8 "body", 2)], [utf8 "new", utf8 "york"]⟩
    let ix : Index := ⟨.ofList [(utf8 "new", [p, p']), (utf8 "york", [r, r'])],
      .ofList [(utf8 "1", d), (utf8 "2", d')], 9, 2⟩
    let s : Searcher := ⟨ix, {}, ⟨[]⟩, .tfidf, 0.5⟩
    let o : SearchOptions := { fields := .ofList [utf8 "body"], explain := true }
    let first : Token := ⟨utf8 "new", 0, []⟩
    let others : List Token := [⟨utf8 "york", 1, []⟩, ⟨utf8 "new", 2, []⟩]
    s.index.check = .ok () ∧ (∀ t ∈ others, first.position ≤ t.position) ∧
      s.index.SumsFit first others ∧ ∃ ms, s.matchPhrase o (first :: others) = .ok ms ∧
        ms.map (·.doc) = [utf8 "1"] ∧
        (¬ 2 ^ 32 ∣ (s.index.beginnings o first others (utf8 "1")).ncard) ∧
        ∀ m ∈ ms, s.IsPhraseMatch o first others m := by
  intro p p' r r' d d' ix s o first others
  have hcheck : s.index.check = .ok () := by rfl
  have hfirst : ∀ t ∈ others, first.position ≤ t.position := by decide
  have hsums : s.index.SumsFit first others := by
    -- gone through the lists, not through all words
    have hall : ((s.index.postings first.text).all fun p ↦ p.fields.all fun h ↦
        h.positions.all fun w ↦ others.all fun t ↦
          w.toNat + (t.position.toNat - first.position.toNat) < 2 ^ 32) = true := by decide
    simp only [List.all_eq_true, decide_eq_true_eq] at hall
    exact hall
  have hfound : List.map Match.doc <$> s.matchPhrase o (first :: others) = .ok [utf8 "1"] := by
    decide +kernel
  obtain ⟨ms, hok, -, hdocs, -, hmatches, -⟩ := matchPhrase_joins (o := o) hcheck hfirst hsums
  have hone : ms.map (·.doc) = [utf8 "1"] := by
    rw [hok] at hfound
    exact Except.ok.inj hfound
  refine ⟨hcheck, hfirst, hsums, ms, hok, hone, (hdocs (utf8 "1")).1 ?_, hmatches⟩
  rw [hone]
  exact List.mem_singleton_self _

end Searcher

end Concordance
