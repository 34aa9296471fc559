import Concordance.Proofs.Pieces
import Concordance.Proofs.Progress

/-!
# Reading drops nothing, and positions point at the text

A tree that is read is laid out in the text that it was read from (`Parser.Laid`): its pieces cover
the text, the text leads to its first leaf, and every node of it has its position in the text
(`Query.BeginsAt`). The functions that read a query take their positions at different points, some
before white space and some behind it, and a group or a single clause leaves no node of its own.
What is common to them is that a position is what is left of the query at some point, and that what
stands from there on leads to the first leaf of the node.

The induction is the recursion of these functions, on texts that are read. In the whole text the
positions are then offsets, and the layout is one of the text (`parse_laidOut`).
-/

namespace Concordance.Query

open Grammar

/-- The text from which a node is read. -/
structure BeginsAt (n : Nat) (node : Query) (s : Bytes) : Prop where
  position : node.position = Parser.offset n s
  leads : Leads n s node.pieces
  sign : node.isNegation = true → s.head? = some 45
  trimmed : node.isConjunction = true → Bytes.trimLeft s = s

/-- A node is read from some point of a text on. -/
def IsPlaced (n : Nat) (s : Bytes) (node : Query) : Prop :=
  ∃ u, u <:+ s ∧ node.BeginsAt n u

/-- A node that begins at its place stands at it. -/
theorem BeginsAt.isPlaced {n : Nat} {node : Query} {s : Bytes} (h : node.BeginsAt n s) :
    node.IsPlaced n s :=
  ⟨s, List.suffix_rfl, h⟩

/-- A place in an ending of the text is one in the text. -/
theorem IsPlaced.of_suffix {n : Nat} {s t : Bytes} {node : Query} (h : node.IsPlaced n t)
    (hst : t <:+ s) : node.IsPlaced n s :=
  let ⟨u, hu, hnode⟩ := h
  ⟨u, hu.trans hst, hnode⟩

namespace Parser

/-- A tree is laid out in a text of which `rest` is left. -/
structure Laid (n : Nat) (s : Bytes) (t : Query) (rest : Bytes) : Prop where
  covers : Covers n s t.pieces rest
  leads : Leads n s t.pieces
  nodes : ∀ node, IsNode node t → node.IsPlaced n s

/-- Trees are laid out one after another. -/
structure LaidAll (n : Nat) (s : Bytes) (qs : List Query) (rest : Bytes) : Prop where
  covers : Covers n s (piecesAll qs) rest
  leads : qs ≠ [] → Leads n s (piecesAll qs)
  nodes : ∀ q ∈ qs, ∀ node, IsNode node q → node.IsPlaced n s

variable {n : Nat} {s t rest : Bytes} {q : Query} {qs : List Query}

/-- Taking white space off leaves an ending. -/
theorem trimLeft_suffix (s : Bytes) : Bytes.trimLeft s <:+ s :=
  List.dropWhile_suffix _

/-! ### How layouts are put together -/

/-- White space before a tree. -/
theorem Laid.of_trimLeft (h : Laid n (Bytes.trimLeft s) q rest) : Laid n s q rest where
  covers := (covers_trimLeft n s).append h.covers
  leads := h.leads.of_trimLeft
  nodes node hnode := (h.nodes node hnode).of_suffix (trimLeft_suffix s)

/-- One tree. -/
theorem Laid.singleton (h : Laid n s q rest) : LaidAll n s [q] rest where
  covers := by
    rw [piecesAll, piecesAll, List.append_nil]
    exact h.covers
  leads _ := by
    rw [piecesAll, piecesAll, List.append_nil]
    exact h.leads
  nodes := List.forall_mem_singleton.2 h.nodes

/-- A tree, what is not kept, and more trees. -/
theorem Laid.cons {gaps : Bytes} (h : Laid n s q (gaps ++ t)) (hgaps : ∀ b ∈ gaps, IsGap b)
    (hall : LaidAll n t qs rest) : LaidAll n s (q :: qs) rest where
  covers := h.covers.append ((covers_gaps hgaps t).append hall.covers)
  leads _ := h.leads.append _
  nodes := List.forall_mem_cons.2 ⟨h.nodes, fun q hq node hnode ↦
    (hall.nodes q hq node hnode).of_suffix ((List.suffix_append gaps t).trans h.covers.suffix)⟩

/-- What is not kept behind trees. -/
theorem LaidAll.of_gaps {gaps : Bytes} (h : LaidAll n s qs (gaps ++ rest))
    (hgaps : ∀ b ∈ gaps, IsGap b) : LaidAll n s qs rest where
  covers := by
    rw [← List.append_nil (piecesAll qs)]
    exact h.covers.append (covers_gaps hgaps rest)
  leads := h.leads
  nodes := h.nodes

/-- Trees that are laid out are laid out under a common node, if that begins with them. -/
theorem LaidAll.gather {node : List Query → Query} (h : LaidAll n s qs rest) (hne : qs ≠ [])
    (hpieces : (node qs).pieces = piecesAll qs) (hoperands : (node qs).operands = qs)
    (hroot : (node qs).BeginsAt n s) : Laid n s (gather node qs) rest := by
  rw [Parser.gather.eq_def]
  split
  · rename_i q
    have hone : piecesAll [q] = q.pieces := by rw [piecesAll, piecesAll, List.append_nil]
    exact ⟨hone ▸ h.covers, hone ▸ h.leads hne, h.nodes q (List.mem_singleton_self q)⟩
  · refine ⟨hpieces ▸ h.covers, hpieces ▸ h.leads hne, forall_isNode_iff.2 ⟨hroot.isPlaced, ?_⟩⟩
    rw [hoperands]
    exact h.nodes

/-- A leaf. -/
theorem laid_leaf {written : Bytes} (hne : written ≠ [])
    (hpieces : q.pieces = [.leaf (offset n (written ++ rest)) written])
    (hposition : q.position = offset n (written ++ rest)) (hoperands : q.operands = [])
    (hkind : q.isNegation = false ∧ q.isConjunction = false) :
    Laid n (written ++ rest) q rest := by
  have hleads : Leads n (written ++ rest) q.pieces := hpieces ▸ .leaf
  have hroot : q.BeginsAt n (written ++ rest) := by
    refine ⟨hposition, hleads, fun h ↦ ?_, fun h ↦ ?_⟩
    · exact absurd (hkind.1.symm.trans h) Bool.false_ne_true
    · exact absurd (hkind.2.symm.trans h) Bool.false_ne_true
  refine ⟨hpieces ▸ .piece (p := .leaf _ written) hne rfl (.done rest), hleads,
    forall_isNode_iff.2 ⟨hroot.isPlaced, ?_⟩⟩
  rw [hoperands]
  exact List.forall_mem_nil _

/-! ### Words and phrases -/

/-- **A part that is read is laid out** from where reading began to where it went on. This is so for
a word or a wildcard. -/
theorem laid_lexeme (h : lexeme n s = .ok (q, rest)) : Laid n s q rest := by
  have hsplit : s.takeWhile isWordByte ++ s.dropWhile isWordByte = s :=
    List.takeWhile_append_dropWhile
  rw [lexeme] at h
  generalize s.takeWhile isWordByte = text at *
  generalize s.dropWhile isWordByte = back at *
  split at h
  · cases h
  · rename_i hne
    have hne : text ≠ [] := fun hnil ↦ hne (List.isEmpty_iff.2 hnil)
    split at h
    · obtain ⟨rfl, rfl⟩ := Prod.mk.inj (Except.ok.inj h)
      rw [← hsplit]
      exact laid_leaf hne rfl rfl rfl ⟨rfl, rfl⟩
    · rename_i i hi
      split at h
      · cases h
      · rename_i hlast
        split at h
        · cases h
        · obtain ⟨rfl, rfl⟩ := Prod.mk.inj (Except.ok.inj h)
          -- the star is the last byte of the text
          obtain ⟨w, more, htext, -, hlength⟩ := idxOf?_eq_some_iff_append.1 hi
          have hmore : more = [] := by
            rw [htext, List.length_append, List.length_cons] at hlast
            exact List.length_eq_zero_iff.1 (by omega)
          have hwritten : text.take i ++ [42] = text := by
            rw [htext, ← hlength, List.take_left, hmore]
          rw [← hsplit]
          refine laid_leaf hne ?_ rfl rfl ⟨rfl, rfl⟩
          rw [pieces, hwritten]

/-- It is so for a phrase. -/
theorem laid_quotation (h : quotation n (offset n (34 :: s)) s = .ok (q, rest)) :
    Laid n (34 :: s) q rest := by
  have hsplit : s.takeWhile (· != 34) ++ s.dropWhile (· != 34) = s :=
    List.takeWhile_append_dropWhile
  have hclose : ∀ b ∈ (s.dropWhile (· != 34)).head?, b = 34 := fun b hb ↦ by
    simpa using eq_false_of_mem_head?_dropWhile hb
  rw [quotation] at h
  generalize s.takeWhile (· != 34) = text at *
  generalize s.dropWhile (· != 34) = back at *
  split at h
  · cases h
  · rename_i b back
    split at h
    · cases h
    · split at h
      · cases h
      · obtain ⟨rfl, rfl⟩ := Prod.mk.inj (Except.ok.inj h)
        have hb : b = 34 := hclose b rfl
        have hs : 34 :: s = (34 :: (text ++ [34])) ++ back := by
          rw [← hsplit, hb, List.cons_append, List.append_assoc, List.singleton_append]
        rw [hs]
        exact laid_leaf (List.cons_ne_nil _ _) rfl rfl rfl ⟨rfl, rfl⟩

/-! ### Trees -/

/-- A bar stands in a gap. -/
theorem isGap_of_isBar {bar : Bytes} (h : IsBar bar) : ∀ b ∈ bar, IsGap b := by
  have hb : IsGap 124 := .inr (.inr (.inr rfl))
  rcases h with rfl | rfl
  · exact List.forall_mem_singleton.2 hb
  · exact List.forall_mem_cons.2 ⟨hb, List.forall_mem_singleton.2 hb⟩

theorem isGap_of_blank {blank : Bytes} (h : Blank blank) : ∀ b ∈ blank, IsGap b :=
  fun b hb ↦ .inl (h b hb)

mutual

/-- **Alternatives that are read are laid out**, and so are all parts of them. -/
theorem laid_disjunction {n : Nat} {s rest : Bytes} {q : Query}
    (h : disjunction n s = .ok (q, rest)) : Laid n s q rest := by
  rw [disjunction] at h
  obtain ⟨⟨qs, rest'⟩, halternatives, h⟩ := Passes.bind_eq_ok_iff.1 h
  obtain ⟨rfl, rfl⟩ := Prod.mk.inj (Except.ok.inj h)
  obtain ⟨hall, hne⟩ := laid_alternatives halternatives
  exact hall.gather hne rfl rfl ⟨rfl, hall.leads hne, nofun, nofun⟩
termination_by 6 * s.length + 5

/-- For alternatives there are the bars between them. -/
theorem laid_alternatives {n : Nat} {s rest : Bytes} {qs : List Query}
    (h : alternatives n s = .ok (qs, rest)) : LaidAll n s qs rest ∧ qs ≠ [] := by
  rw [alternatives_eq] at h
  obtain ⟨⟨q, back⟩, hconjunction, h⟩ := Passes.bind_eq_ok_iff.1 h
  have hfirst := laid_conjunction hconjunction
  obtain ⟨before, hbefore, hback⟩ := exists_blank back
  rw [hback] at hfirst
  dsimp only at h
  split at h
  · obtain ⟨rfl, rfl⟩ := Prod.mk.inj (Except.ok.inj h)
    exact ⟨hfirst.singleton.of_gaps (isGap_of_blank hbefore), List.cons_ne_nil _ _⟩
  · rename_i u hu
    split at h
    · cases h
    · obtain ⟨⟨qs', rest'⟩, halternatives, h⟩ := Passes.bind_eq_ok_iff.1 h
      obtain ⟨rfl, rfl⟩ := Prod.mk.inj (Except.ok.inj h)
      have hlt := length_lt_of_next hconjunction hu
      obtain ⟨hmore, -⟩ := laid_alternatives halternatives
      obtain ⟨bar, hbar, htrim⟩ := exists_bar hu
      obtain ⟨after, hafter, heq⟩ := exists_blank u
      rw [htrim, heq, ← List.append_assoc, ← List.append_assoc] at hfirst
      have hgaps : ∀ b ∈ before ++ bar ++ after, IsGap b :=
        List.forall_mem_append.2 ⟨List.forall_mem_append.2
          ⟨isGap_of_blank hbefore, isGap_of_isBar hbar⟩, isGap_of_blank hafter⟩
      exact ⟨hfirst.cons hgaps hmore, List.cons_ne_nil _ _⟩
termination_by 6 * s.length + 4

theorem laid_conjunction {n : Nat} {s rest : Bytes} {q : Query}
    (h : conjunction n s = .ok (q, rest)) : Laid n s q rest := by
  have hle := Bytes.length_trimLeft_le s
  rw [conjunction] at h
  dsimp only at h
  split at h
  · split at h <;> cases h
  · rename_i hbegins
    obtain ⟨⟨qs, rest'⟩, hclauses, h⟩ := Passes.bind_eq_ok_iff.1 h
    obtain ⟨rfl, rfl⟩ := Prod.mk.inj (Except.ok.inj h)
    obtain ⟨hall, hne⟩ := laid_clauses hclauses
    have hne := hne (by rw [trimLeft_trimLeft]; exact Bool.eq_false_iff.2 hbegins)
    have hroot : (conj (offset n (Bytes.trimLeft s)) qs).BeginsAt n (Bytes.trimLeft s) :=
      ⟨rfl, hall.leads hne, nofun, fun _ ↦ trimLeft_trimLeft s⟩
    exact (hall.gather hne rfl rfl hroot).of_trimLeft
termination_by 6 * s.length + 3

/-- For clauses there is the white space between them. -/
theorem laid_clauses {n : Nat} {s rest : Bytes} {qs : List Query}
    (h : clauses n s = .ok (qs, rest)) :
    LaidAll n s qs rest ∧ (endsClause (Bytes.trimLeft s) = false → qs ≠ []) := by
  have hle := Bytes.length_trimLeft_le s
  rw [clauses_eq] at h
  split at h
  · rename_i hends
    obtain ⟨rfl, rfl⟩ := Prod.mk.inj (Except.ok.inj h)
    exact ⟨⟨covers_trimLeft n s, fun hne ↦ absurd rfl hne, List.forall_mem_nil _⟩,
      fun hbegins ↦ absurd (hbegins.symm.trans hends) Bool.false_ne_true⟩
  · obtain ⟨⟨q, back⟩, hclause, h⟩ := Passes.bind_eq_ok_iff.1 h
    obtain ⟨⟨qs', rest'⟩, hclauses, h⟩ := Passes.bind_eq_ok_iff.1 h
    obtain ⟨rfl, rfl⟩ := Prod.mk.inj (Except.ok.inj h)
    have hlt := length_lt_of_clause hclause
    have hfirst : Laid n s q ([] ++ back) := (laid_clause hclause).of_trimLeft
    obtain ⟨hmore, -⟩ := laid_clauses hclauses
    exact ⟨hfirst.cons (List.forall_mem_nil _) hmore, fun _ ↦ List.cons_ne_nil _ _⟩
termination_by 6 * s.length + 2

theorem laid_clause {n : Nat} {s rest : Bytes} {q : Query} (h : clause n s = .ok (q, rest)) :
    Laid n s q rest := by
  rw [clause.eq_def] at h
  split at h
  · rename_i t
    split at h
    · cases h
    · split at h
      · cases h
      · obtain ⟨⟨q', rest'⟩, hprimary, h⟩ := Passes.bind_eq_ok_iff.1 h
        obtain ⟨rfl, rfl⟩ := Prod.mk.inj (Except.ok.inj h)
        have hoperand := laid_primary hprimary
        have hleads : Leads n (45 :: t) (neg (offset n (45 :: t)) q').pieces :=
          .sign hoperand.leads
        refine ⟨.piece (p := .sign _) (List.cons_ne_nil _ _) rfl hoperand.covers, hleads, ?_⟩
        have hroot : (neg (offset n (45 :: t)) q').BeginsAt n (45 :: t) :=
          ⟨rfl, hleads, fun _ ↦ rfl, nofun⟩
        exact forall_isNode_iff.2 ⟨hroot.isPlaced, List.forall_mem_singleton.2 fun node hnode ↦
          (hoperand.nodes node hnode).of_suffix (List.suffix_cons 45 t)⟩
  · exact laid_primary h
termination_by 6 * s.length + 1

/-- For a group there are the parentheses. -/
theorem laid_primary {n : Nat} {s rest : Bytes} {q : Query} (h : primary n s = .ok (q, rest)) :
    Laid n s q rest := by
  rw [primary.eq_def] at h
  split at h
  · exact laid_quotation h
  · rename_i t
    dsimp only at h
    split at h
    · cases h
    · split at h
      · cases h
      · obtain ⟨⟨q', back⟩, hdisjunction, h⟩ := Passes.bind_eq_ok_iff.1 h
        have hle := Bytes.length_trimLeft_le t
        have hinner := (laid_disjunction hdisjunction).of_trimLeft
        dsimp only at h
        split at h
        · rename_i rest' hclose
          obtain ⟨rfl, rfl⟩ := Prod.mk.inj (Except.ok.inj h)
          have hopen : IsGap 40 := .inr (.inl rfl)
          have hback : Covers n back [] rest' := by
            have htrim := covers_trimLeft n back
            rw [hclose] at htrim
            exact htrim.append (.gap (.inr (.inr (.inl rfl))) (.done rest'))
          refine ⟨.gap hopen ?_, .skip (.inr rfl) hinner.leads, fun node hnode ↦
            (hinner.nodes node hnode).of_suffix (List.suffix_cons 40 t)⟩
          rw [← List.append_nil q'.pieces]
          exact hinner.covers.append hback
        · cases h
  · exact laid_lexeme h
termination_by 6 * s.length
decreasing_by
  subst_vars
  rw [List.length_cons]
  omega

end

end Parser

/-! ### The whole text -/

/-- A tree is laid out in a whole text, and its positions are offsets there. -/
structure LaidOut (text : Bytes) (t : Query) : Prop where
  /-- The leaves stand in the text as they are written. -/
  leaves : ∀ leaf ∈ t.leaves, leaf.StandsIn text
  /-- From left to right they stand apart, one after another. -/
  apart : t.leaves.Pairwise Piece.Precedes
  /-- A negated clause begins at a minus, before its first leaf. -/
  signs : ∀ position operand, IsNode (neg position operand) t →
    text[position]? = some 45 ∧ ∀ first ∈ operand.leaves.head?, position < first.position
  /-- Every node has a first leaf, and little stands between the begin of the node and that leaf. -/
  leads : ∀ node, IsNode node t → ∃ first, node.leaves.head? = some first ∧
    node.position ≤ first.position ∧
      ∀ i b, node.position ≤ i → i < first.position → text[i]? = some b → IsLead b
  /-- What is neither in a leaf nor the minus of a negated clause is not kept. -/
  rest : ∀ i b, text[i]? = some b → IsGap b ∨
    (∃ leaf ∈ t.leaves, leaf.position ≤ i ∧ i < leaf.stop) ∨ ∃ operand, IsNode (neg i operand) t

section Whole

variable {text s : Bytes} {ps : List Piece}

theorem Leads.of_sign {n p : Nat} (h : Leads n (45 :: s) (.sign p :: ps)) : Leads n s ps := by
  generalize hs : 45 :: s = u at h
  cases h with
  | sign h => exact (List.cons.inj hs).2 ▸ h
  | skip hb h => exact absurd ((List.cons.inj hs).1 ▸ hb) (by decide)

/-- Between a node and its first leaf there is nothing but what may lead to it. -/
theorem IsPlaced.leads {node : Query} (h : node.IsPlaced text.length text) :
    ∃ first, node.leaves.head? = some first ∧ node.position ≤ first.position ∧
      ∀ i b, node.position ≤ i → i < first.position → text[i]? = some b → IsLead b := by
  obtain ⟨s, hs, hnode⟩ := h
  rw [hnode.position]
  exact hnode.leads.exists_first hs

/-- Where a negated clause is read there is a minus, and its operand is read behind it. -/
theorem IsPlaced.sign {position : Nat} {operand : Query}
    (h : (neg position operand).IsPlaced text.length text) :
    text[position]? = some 45 ∧ ∀ first ∈ operand.leaves.head?, position < first.position := by
  obtain ⟨s, hs, hnode⟩ := h
  obtain ⟨s, rfl⟩ := List.head?_eq_some_iff.1 (hnode.sign rfl)
  have hposition : position = Parser.offset text.length (45 :: s) := hnode.position
  obtain ⟨first, hfirst, hle, -⟩ :=
    hnode.leads.of_sign.exists_first ((List.suffix_cons 45 s).trans hs)
  constructor
  · rw [hposition, getElem?_offset hs]
    rfl
  · intro leaf hleaf
    obtain rfl : first = leaf := Option.some.inj (hfirst.symm.trans hleaf)
    have hnext : Parser.offset text.length (45 :: s) + 1 = Parser.offset text.length s :=
      offset_add_length [45] hs
    omega

end Whole

/-- A tree behind which there is only white space is laid out in the whole text. -/
theorem laid_whole {n : Nat} {text rest : Bytes} {t : Query}
    (h : Parser.disjunction n (Bytes.trimLeft text) = .ok (t, rest))
    (hrest : Bytes.trimLeft rest = []) : Parser.Laid n text t [] := by
  have hlaid := (Parser.laid_disjunction h).of_trimLeft
  have hend := covers_trimLeft n rest
  rw [hrest] at hend
  refine ⟨?_, hlaid.leads, hlaid.nodes⟩
  rw [← List.append_nil t.pieces]
  exact hlaid.covers.append hend

/-- A text that is read is alternatives with white space around them, and they keep to the negation
rule. -/
theorem exists_rest_of_parse {text : Bytes} {t : Query} (h : parse text = .ok t) :
    ∃ rest, Parser.disjunction text.length (Bytes.trimLeft text) = .ok (t, rest) ∧
      Bytes.trimLeft rest = [] ∧ t.checkNegation false = .ok () := by
  rw [parse] at h
  dsimp only at h
  split at h
  · cases h
  · obtain ⟨⟨q, rest⟩, hdisjunction, h⟩ := Passes.bind_eq_ok_iff.1 h
    dsimp only at h
    split at h
    · rename_i hrest
      obtain ⟨hcheck, h⟩ := Passes.check_bind_eq_ok_iff.1 h
      obtain rfl := Except.ok.inj h
      exact ⟨rest, hdisjunction, hrest, hcheck⟩
    · cases h

/-- The tree of a text is laid out in it. -/
theorem laid_of_parse {text : Bytes} {t : Query} (h : parse text = .ok t) :
    Parser.Laid text.length text t [] :=
  let ⟨_, hdisjunction, hrest, _⟩ := exists_rest_of_parse h
  laid_whole hdisjunction hrest

/-- **Reading drops nothing, and positions point at the text.** In the text of every tree that is
read, the leaves stand where their positions say, as they were written and one after another; a
negated clause is at its minus, and between that and its first leaf, as between the begin of any
node and its first leaf, there is nothing but white space, opening parentheses and more such signs;
and every byte that is neither in a leaf nor the minus of a negated clause is white space, a
parenthesis or a bar. -/
theorem parse_laidOut {text : Bytes} {t : Query} (h : parse text = .ok t) : LaidOut text t := by
  have hlaid := laid_of_parse h
  have hpieces : ∀ leaf, leaf ∈ t.leaves → leaf ∈ t.pieces := fun leaf hleaf ↦
    List.mem_of_mem_filter hleaf
  refine ⟨fun leaf hleaf ↦ ?_, ?_, fun position operand hnode ↦ ?_, fun node hnode ↦ ?_,
    fun i b hb ↦ ?_⟩
  · exact hlaid.covers.standsIn List.suffix_rfl leaf (hpieces leaf hleaf)
  · exact (hlaid.covers.apart (Nat.le_refl _)).filter _
  · exact (hlaid.nodes _ hnode).sign
  · exact (hlaid.nodes node hnode).leads
  · have hstart : Parser.offset text.length text ≤ i := by
      rw [Parser.offset, Nat.sub_self]
      exact Nat.zero_le i
    obtain hgap | ⟨p, hp, hle, hlt⟩ := hlaid.covers.gap_or_piece List.suffix_rfl hb hstart
    · exact .inl hgap
    · refine .inr ?_
      cases p with
      | sign position =>
        -- a sign is a single byte
        obtain rfl : position = i := Nat.le_antisymm hle (Nat.lt_succ_iff.1 hlt)
        exact .inr (sign_mem_pieces_iff.1 hp)
      | leaf position written => exact .inl ⟨_, List.mem_filter.2 ⟨hp, rfl⟩, hle, hlt⟩

/-- A negated group, a wildcard, a phrase and a bar, with white space between. -/
theorem parse_laidOut_group :
    let text := utf8 " a -( \"b c\" ||d*)"
    let t : Query := .conj 1 [.word 1 (utf8 "a"), .neg 3 (.disj 6
      [.phrase 6 (utf8 "b c") [utf8 "b", utf8 "c"], .wildcard 14 (utf8 "d")])]
    parse text = .ok t ∧ LaidOut text t := by
  have h : parse (utf8 " a -( \"b c\" ||d*)") = .ok (.conj 1 [.word 1 (utf8 "a"), .neg 3 (.disj 6
      [.phrase 6 (utf8 "b c") [utf8 "b", utf8 "c"], .wildcard 14 (utf8 "d")])]) := by
    with_unfolding_all rfl
  exact ⟨h, parse_laidOut h⟩

end Concordance.Query
