import Concordance.Proofs.CorpusIndex
import Concordance.Proofs.Passes
import Mathlib.Data.List.TakeDrop
import Mathlib.Logic.Function.Basic

/-!
# The postings of an index, term by term

The dictionary of terms is a function from terms to postings that leaves out the terms without
any: `Keeps terms f` says that a dictionary is that function. What recording and retracting a
document do to the dictionary is then what they do to the function, one term at a time, and a
dictionary is known by the function that it keeps (`Keeps.unique`).

On the postings of one term the two are set operations: retracting takes out the posting of the
document, recording puts one in. Both find the place by the order of the documents.
-/

namespace Concordance.Index

/-- **Replacing the postings of a term** sets them or takes the term out, and no other. -/
theorem find?_setPostings (terms : Dict Postings) (term term' : Bytes) (ps : Postings) :
    (setPostings terms term ps).find? term' =
      if term = term' then if ps = [] then none else some ps else terms.find? term' := by
  rw [setPostings]
  rcases ps with _ | ⟨p, ps⟩
  · exact Dict.find?_erase terms term term'
  · exact Dict.find?_insert terms term term' _

/-- A dictionary of terms that has the postings of a function, and no empty ones. -/
def Keeps (terms : Dict Postings) (f : Bytes → Postings) : Prop :=
  ∀ term, terms.find? term = if f term = [] then none else some (f term)

namespace Keeps

variable {terms terms' : Dict Postings} {f g : Bytes → Postings}

theorem getD_find? (h : Keeps terms f) (term : Bytes) : (terms.find? term).getD [] = f term := by
  rw [h]
  split
  · rename_i hnil
    rw [hnil]
    rfl
  · rfl

/-- **A dictionary is known by the function that it keeps.** -/
theorem unique (h : Keeps terms f) (h' : Keeps terms' f) : terms = terms' :=
  Dict.ext_find? fun term ↦ by rw [h, h']

theorem congr (h : Keeps terms f) (hfg : ∀ term, f term = g term) : Keeps terms g := by
  intro term
  rw [h, hfg]

/-- Replacing the postings of a term replaces one value of the function. -/
theorem setPostings (h : Keeps terms f) (term : Bytes) (ps : Postings) :
    Keeps (setPostings terms term ps) (Function.update f term ps) := by
  intro term'
  rw [find?_setPostings]
  by_cases hterm : term = term'
  · rw [if_pos hterm, hterm, Function.update_self]
  · rw [if_neg hterm, Function.update_of_ne (Ne.symm hterm), h]

end Keeps

/-! ### Some terms done and others not -/

/-- Postings of which those of some terms have changed. -/
def partly (f g : Bytes → Postings) (done : List Bytes) (term : Bytes) : Postings :=
  if term ∈ done then g term else f term

section Partly

variable {terms : Dict Postings} {f g : Bytes → Postings} {done : List Bytes} {term : Bytes}

theorem partly_of_notMem (h : term ∉ done) : partly f g done term = f term :=
  if_neg h

theorem Keeps.partly_nil (h : Keeps terms f) : Keeps terms (partly f g []) :=
  h.congr fun _ ↦ (partly_of_notMem List.not_mem_nil).symm

/-- One more term is done. -/
theorem Keeps.partly_append (h : Keeps terms (Function.update (partly f g done) term (g term))) :
    Keeps terms (partly f g (done ++ [term])) := by
  refine h.congr fun term' ↦ ?_
  rcases eq_or_ne term' term with rfl | hne
  · rw [Function.update_self]
    exact (if_pos (List.mem_append_right _ (List.mem_singleton_self _))).symm
  · rw [Function.update_of_ne hne]
    simp [partly, hne]

/-- All terms are done that had to be. -/
theorem Keeps.of_partly (h : Keeps terms (partly f g done))
    (hrest : ∀ term ∉ done, g term = f term) :
    Keeps terms g := by
  refine h.congr fun term ↦ ?_
  by_cases hterm : term ∈ done
  · exact if_pos hterm
  · rw [hrest term hterm]
    exact if_neg hterm

end Partly

/-- **The terms of the index of a corpus are its postings.** -/
theorem keeps_index (a : Analyzer) (c : Corpus) (version : UInt64) :
    Keeps (c.index a version).terms (c.postings a) := by
  intro term
  have hvocabulary : (c.index a version).terms.find? term =
      ((c.vocabulary a).find? term).map fun _ ↦ c.postings a term :=
    Dict.find?_mapValues _ _ _
  rw [hvocabulary]
  rcases hfind : (c.vocabulary a).find? term with _ | u
  · have hnil : c.postings a term = [] := by
      by_contra hne
      exact Dict.find?_eq_none_iff.1 hfind (Corpus.postings_ne_nil_iff.1 hne)
    rw [if_pos hnil]
    rfl
  · have hne : c.postings a term ≠ [] :=
      Corpus.postings_ne_nil_iff.2 (Dict.mem_keys_iff.2 ⟨u, hfind⟩)
    rw [if_neg hne]
    rfl

/-! ### One list of postings -/

section Postings

variable {ps : Postings} {id : Bytes}

theorem splitAt_eq (id : Bytes) (ps : Postings) :
    splitAt id ps = (ps.takeWhile (·.doc < id), ps.dropWhile (·.doc < id)) :=
  List.span_eq_takeWhile_dropWhile _ ps

/-- Where there is a posting of the document, the list splits in front of it. -/
theorem splitAt_of_mem (h : ps.Pairwise fun p q ↦ p.doc < q.doc) {p : Posting} (hp : p ∈ ps)
    (hdoc : p.doc = id) : ∃ before after, splitAt id ps = (before, p :: after) ∧
      before ++ after = ps.filter (·.doc ≠ id) := by
  rw [splitAt_eq]
  induction ps with
  | nil => exact absurd hp List.not_mem_nil
  | cons q ps ih =>
    obtain ⟨hq, hps⟩ := List.pairwise_cons.1 h
    rcases List.mem_cons.1 hp with rfl | hp
    · -- the posting is the first: nothing before it, and all after it are of other documents
      have hnot : ¬ p.doc < id := fun hlt ↦ Bytes.ne_of_lt hlt hdoc
      have hother : ∀ r ∈ ps, r.doc ≠ id := fun r hr ↦ hdoc ▸ (Bytes.ne_of_lt (hq r hr)).symm
      refine ⟨[], ps, ?_, ?_⟩
      · simp [hnot]
      · rw [List.filter_cons_of_neg (by simpa using hdoc), List.nil_append]
        exact (List.filter_eq_self.2 fun r hr ↦ decide_eq_true (hother r hr)).symm
    · have hlt : q.doc < id := hdoc ▸ hq p hp
      obtain ⟨before, after, hsplit, hfilter⟩ := ih hps hp
      obtain ⟨hbefore, hafter⟩ := Prod.mk.inj hsplit
      refine ⟨q :: before, after, ?_, ?_⟩
      · simp [hlt, hbefore, hafter]
      · simp [Bytes.ne_of_lt hlt, hfilter]

/-- Postings with one more, before the first of a document that is not smaller. -/
def putPosting (p : Posting) (ps : Postings) : Postings :=
  (splitAt p.doc ps).1 ++ p :: (splitAt p.doc ps).2

theorem mem_putPosting {p q : Posting} : q ∈ putPosting p ps ↔ q = p ∨ q ∈ ps := by
  have hps : (splitAt p.doc ps).1 ++ (splitAt p.doc ps).2 = ps := by
    rw [splitAt_eq]
    exact List.takeWhile_append_dropWhile
  rw [putPosting, List.mem_append, List.mem_cons, or_left_comm, ← List.mem_append, hps]

/-- The place of a posting of a new document keeps the order. -/
theorem putPosting_ascending (h : ps.Pairwise fun p q ↦ p.doc < q.doc) {p : Posting}
    (hnew : ∀ q ∈ ps, q.doc ≠ p.doc) : (putPosting p ps).Pairwise fun p q ↦ p.doc < q.doc := by
  rw [putPosting, splitAt_eq]
  induction ps with
  | nil => exact List.pairwise_singleton _ _
  | cons q ps ih =>
    obtain ⟨hq, hps⟩ := List.pairwise_cons.1 h
    obtain ⟨hqid, hnew⟩ := List.forall_mem_cons.1 hnew
    by_cases hlt : q.doc < p.doc
    · rw [List.takeWhile_cons_of_pos (by simpa using hlt),
        List.dropWhile_cons_of_pos (by simpa using hlt)]
      refine List.pairwise_cons.2 ⟨fun r hr ↦ ?_, ih hps hnew⟩
      have hput : r ∈ putPosting p ps := by
        rw [putPosting, splitAt_eq]
        exact hr
      rcases mem_putPosting.1 hput with rfl | hr
      · exact hlt
      · exact hq r hr
    · -- this is the place, and the posting goes before all that are left
      have hgt : p.doc < q.doc := Bytes.lt_of_not_lt_of_ne hlt hqid
      rw [List.takeWhile_cons_of_neg (by simpa using hlt),
        List.dropWhile_cons_of_neg (by simpa using hlt)]
      refine List.pairwise_cons.2 ⟨fun r hr ↦ ?_, h⟩
      rcases List.mem_cons.1 hr with rfl | hr
      · exact hgt
      · exact Bytes.lt_trans hgt (hq r hr)

end Postings

/-! ### Retracting and recording terms -/

section Terms

variable {terms : Dict Postings} {f : Bytes → Postings} {id term : Bytes} {l : List Bytes}

/-- **Retracting a term takes out the posting of the document**, if it has one. -/
theorem exists_retractTerm (h : Keeps terms f) (hf : (f term).Pairwise fun p q ↦ p.doc < q.doc)
    (hlisted : ∃ p ∈ f term, p.doc = id) : ∃ terms', retractTerm id terms term = .ok terms' ∧
      Keeps terms' (Function.update f term ((f term).filter (·.doc ≠ id))) := by
  obtain ⟨p, hp, hdoc⟩ := hlisted
  obtain ⟨before, after, hsplit, hfilter⟩ := splitAt_of_mem hf hp hdoc
  refine ⟨Index.setPostings terms term (before ++ after), ?_, ?_⟩
  · rw [retractTerm, h.getD_find?, hsplit]
    exact if_pos hdoc
  · rw [← hfilter]
    exact h.setPostings term (before ++ after)

/-- A posting that is found when a term is retracted is one of the term's. -/
theorem exists_posting_of_retractTerm (h : Keeps terms f) {terms' : Dict Postings}
    (hok : retractTerm id terms term = .ok terms') : ∃ p ∈ f term, p.doc = id := by
  rw [retractTerm, h.getD_find?, splitAt_eq] at hok
  split at hok
  · rename_i before p after hsplit
    split at hok
    · rename_i hdoc
      have hafter : (f term).dropWhile (·.doc < id) = p :: after := (Prod.mk.inj hsplit).2
      have hp : p ∈ (f term).dropWhile (·.doc < id) := hafter ▸ List.mem_cons_self
      exact ⟨p, (List.dropWhile_sublist _).subset hp, hdoc⟩
    · cases hok
  · cases hok

/-- Recording a term replaces its postings, and some are left. -/
theorem recordTerm_eq (d : AnalyzedDocument) (terms : Dict Postings) (term : Bytes) :
    recordTerm d terms term =
      setPostings terms term (putPosting (d.posting term) ((terms.find? term).getD [])) := by
  rw [setPostings, if_neg (by simp [putPosting])]
  rfl

/-- **Recording a term puts the posting of the document in.** -/
theorem recordTerm_keeps (h : Keeps terms f) (d : AnalyzedDocument) (term : Bytes) :
    Keeps (recordTerm d terms term)
      (Function.update f term (putPosting (d.posting term) (f term))) := by
  rw [recordTerm_eq, h.getD_find?]
  exact h.setPostings term _

/-- A term that a list has once is not among those before it. -/
theorem notMem_of_nodup {before after : List Bytes} (h : l.Nodup)
    (hl : l = before ++ term :: after) : term ∉ before := by
  rw [hl] at h
  exact fun hmem ↦ (List.nodup_append.1 h).2.2 term hmem term List.mem_cons_self rfl

/-- **Retracting several terms** of which the document has postings, each once. -/
theorem exists_foldlM_retractTerm (h : Keeps terms f)
    (hf : ∀ term, (f term).Pairwise fun p q ↦ p.doc < q.doc) (hl : l.Nodup)
    (hlisted : ∀ term ∈ l, ∃ p ∈ f term, p.doc = id) :
    ∃ terms', l.foldlM (retractTerm id) terms = .ok terms' ∧
      Keeps terms' (partly f (fun term ↦ (f term).filter (·.doc ≠ id)) l) := by
  refine Passes.exists_foldlM
    (fun done terms ↦ Keeps terms (partly f (fun term ↦ (f term).filter (·.doc ≠ id)) done))
    (fun done term later terms heq hkeeps ↦ ?_) h.partly_nil
  -- this term has not been done yet, so it still has its postings
  have hsame := partly_of_notMem (f := f) (g := fun term ↦ (f term).filter (·.doc ≠ id))
    (notMem_of_nodup hl heq)
  have hmem : term ∈ l := heq ▸ List.mem_append_right _ List.mem_cons_self
  obtain ⟨terms', hok, hupdate⟩ := @exists_retractTerm terms _ id term hkeeps
    (by rw [hsame]; exact hf term) (by rw [hsame]; exact hlisted term hmem)
  rw [hsame] at hupdate
  exact ⟨terms', hok, hupdate.partly_append⟩

/-- **Terms that can be retracted one after another** stand in their list once, and the document has
postings for all of them. -/
theorem listed_of_foldlM_retractTerm (hf : ∀ term, (f term).Pairwise fun p q ↦ p.doc < q.doc)
    (h : Keeps terms f) {terms' : Dict Postings}
    (hok : l.foldlM (retractTerm id) terms = .ok terms') :
    l.Nodup ∧ ∀ term ∈ l, ∃ p ∈ f term, p.doc = id := by
  induction l generalizing terms f with
  | nil => exact ⟨List.nodup_nil, nofun⟩
  | cons term l ih =>
    rw [List.foldlM_cons] at hok
    rcases hretract : retractTerm id terms term with e | next
    · rw [hretract] at hok
      cases hok
    · rw [hretract] at hok
      have hlisted := exists_posting_of_retractTerm h hretract
      obtain ⟨next', hnext, hkeeps⟩ := exists_retractTerm h (hf term) hlisted
      obtain rfl : next = next' := Except.ok.inj (hretract.symm.trans hnext)
      have hf' : ∀ term', (Function.update f term ((f term).filter (·.doc ≠ id)) term').Pairwise
          fun p q ↦ p.doc < q.doc := by
        intro term'
        rcases eq_or_ne term' term with rfl | hne
        · rw [Function.update_self]
          exact (hf term').filter _
        · rw [Function.update_of_ne hne]
          exact hf term'
      obtain ⟨hnodup, hall⟩ := ih hf' hkeeps hok
      -- the term has no posting of the document any more, so it is not among the rest
      have hnot : term ∉ l := by
        intro hmem
        obtain ⟨p, hp, hdoc⟩ := hall term hmem
        rw [Function.update_self] at hp
        exact of_decide_eq_true (List.mem_filter.1 hp).2 hdoc
      refine ⟨List.nodup_cons.2 ⟨hnot, hnodup⟩,
        List.forall_mem_cons.2 ⟨hlisted, fun term' hmem ↦ ?_⟩⟩
      have hne : term' ≠ term := fun heq ↦ hnot (heq ▸ hmem)
      have hlater := hall term' hmem
      rwa [Function.update_of_ne hne] at hlater

/-- **Recording several terms**, each once. -/
theorem keeps_foldl_recordTerm (h : Keeps terms f) (d : AnalyzedDocument) (hl : l.Nodup) :
    Keeps (l.foldl (recordTerm d) terms)
      (partly f (fun term ↦ putPosting (d.posting term) (f term)) l) := by
  refine Passes.inv_foldl
    (fun done terms ↦ Keeps terms (partly f (fun term ↦ putPosting (d.posting term) (f term)) done))
    (fun done term later terms heq hkeeps ↦ ?_) h.partly_nil
  have hupdate := recordTerm_keeps hkeeps d term
  rw [partly_of_notMem (notMem_of_nodup hl heq)] at hupdate
  exact hupdate.partly_append

end Terms

/-! ### One term of a document -/

section Term

variable {a : Analyzer} {c : Corpus} {id term : Bytes} {fields : Dict Bytes}

/-- The postings without a document are those of the corpus without it. -/
theorem postings_erase (a : Analyzer) (c : Corpus) (id term : Bytes) :
    Corpus.postings a (c.erase id) term = (c.postings a term).filter (·.doc ≠ id) := by
  refine eq_of_ascending (Corpus.postings_ascending a _ term)
    ((Corpus.postings_ascending a c term).filter _) fun p ↦ ?_
  rw [List.mem_filter, Corpus.mem_postings, Corpus.mem_postings, decide_eq_true_eq]
  constructor
  · rintro ⟨fields, hfind, hp⟩
    obtain ⟨hne, hfind⟩ := Dict.find?_erase_eq_some_iff.1 hfind
    exact ⟨⟨fields, hfind, hp⟩, Ne.symm hne⟩
  · rintro ⟨⟨fields, hfind, hp⟩, hne⟩
    exact ⟨fields, Dict.find?_erase_eq_some_iff.2 ⟨Ne.symm hne, hfind⟩, hp⟩

/-- A term that a document does not have keeps its postings without the document. -/
theorem postings_erase_of_notMem (hfind : c.find? id = some fields)
    (hterm : term ∉ (Corpus.terms a fields).toList) :
    Corpus.postings a (c.erase id) term = c.postings a term := by
  rw [postings_erase, List.filter_eq_self]
  intro p hp
  obtain ⟨fields', hfind', hp⟩ := Corpus.mem_postings.1 hp
  refine decide_eq_true fun hdoc ↦ hterm ?_
  rw [hdoc, hfind] at hfind'
  exact Option.some.inj hfind' ▸ (Corpus.posting?_eq_some_iff.1 hp).2

/-- The postings of a new document's term are those before with its posting put in. -/
theorem postings_insert (hnew : id ∉ c.keys) (hterm : term ∈ (Corpus.terms a fields).toList) :
    Corpus.postings a (c.insert id fields) term =
      putPosting (AnalyzedDocument.posting ⟨id, Corpus.fieldTokens a fields⟩ term)
        (c.postings a term) := by
  have hother : ∀ p ∈ c.postings a term, p.doc ≠ id := by
    intro p hp hdoc
    obtain ⟨fields', hfind, -⟩ := Corpus.mem_postings.1 hp
    exact hnew (hdoc ▸ Dict.mem_keys_iff.2 ⟨fields', hfind⟩)
  refine eq_of_ascending (Corpus.postings_ascending a _ term)
    (putPosting_ascending (Corpus.postings_ascending a c term) hother) fun p ↦ ?_
  rw [mem_putPosting, Corpus.posting_eq, Corpus.mem_postings]
  constructor
  · rintro ⟨fields', hfind, hp⟩
    rw [Dict.find?_insert] at hfind
    split at hfind
    · rename_i hdoc
      cases hfind
      rw [← hdoc] at hp
      exact .inl (Corpus.posting?_eq_some_iff.1 hp).1
    · exact .inr (Corpus.mem_postings.2 ⟨fields', hfind, hp⟩)
  · rintro (rfl | hp)
    · refine ⟨fields, ?_, Corpus.posting?_eq_some_iff.2 ⟨rfl, hterm⟩⟩
      rw [Dict.find?_insert, if_pos rfl]
    · obtain ⟨fields', hfind, hposting⟩ := Corpus.mem_postings.1 hp
      refine ⟨fields', ?_, hposting⟩
      rw [Dict.find?_insert, if_neg (Ne.symm (hother p hp)), hfind]

/-- A term that a new document does not have keeps its postings. -/
theorem postings_insert_of_notMem (hnew : id ∉ c.keys)
    (hterm : term ∉ (Corpus.terms a fields).toList) :
    Corpus.postings a (c.insert id fields) term = c.postings a term := by
  have hfind : (c.insert id fields).find? id = some fields := by
    rw [Dict.find?_insert, if_pos rfl]
  rw [← postings_erase_of_notMem hfind hterm, Dict.erase_insert_of_notMem hnew]

end Term

end Concordance.Index
