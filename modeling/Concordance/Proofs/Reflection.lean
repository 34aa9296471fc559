import Concordance.Proofs.AllOrNothing
import Concordance.Proofs.TermMatches

/-!
# What an index reflects, whatever the size of its documents

An index in step with its corpus is the index of the corpus to the last number, and for that the
tokens of each document have to be few enough to be counted with 32 bits. What a search finds, and
what it explains, depends on less: which documents there are, and that the postings are those of
their texts. That much an index reflects of its corpus after any history of moves, however large the
documents are (`reflects_atEnd`): it follows any document that is put in, whether or not its tokens
can be counted.
-/

namespace Concordance

variable {a : Analyzer} {ix ix' : Index} {c : Corpus}

/-- An index that reflects a corpus: it is tidy, it has the documents of the corpus, and its
postings are those of their texts. -/
structure Index.Reflects (ix : Index) (a : Analyzer) (c : Corpus) : Prop where
  tidy : ix.IsTidy
  documents : ∀ id, id ∈ ix.documents.keys ↔ id ∈ c.keys
  postings : ∀ term p, p ∈ ix.postings term ↔ p ∈ c.postings a term

namespace Index.Reflects

/-- What is reflected does not depend on the version. -/
theorem publish (h : ix.Reflects a c) : ix.publish.Reflects a c :=
  ⟨h.tidy.publish, h.documents, h.postings⟩

section

variable (h : ix.Reflects a c)

include h

/-- A search cannot tell the index from its corpus. -/
theorem mirrors : ix.Mirrors a c where
  documents id := by rw [hasDocument, Dict.contains_iff, h.documents, Dict.mem_keys_iff]
  postings term :=
    eq_of_ascending (h.tidy.ordered term) (Corpus.postings_ascending a c term) (h.postings term)

/-- **A document that is put in** is reflected, and the others are as before. -/
theorem exists_replace (d : Document) :
    ∃ ix', ix.replace ⟨d.id, Corpus.fieldTokens a d.fields⟩ = .ok ix' ∧
      ix'.Reflects a (c.insert d.id d.fields) := by
  obtain ⟨ix', hok, htidy, hpostings⟩ :=
    h.tidy.exists_replace ⟨d.id, Corpus.fieldTokens a d.fields⟩
  refine ⟨ix', hok, htidy, fun id ↦ ?_, fun term p ↦ ?_⟩
  · rw [(documents_of_replace hok).2, Dict.mem_keys_insert, Dict.mem_keys_insert, h.documents]
  · rw [hpostings, h.postings, Corpus.mem_postings, Corpus.mem_postings, Corpus.posting_eq,
      Corpus.terms_eq, Dict.find?_insert]
    by_cases hdoc : d.id = p.doc
    · -- the posting is the new one
      rw [if_pos hdoc]
      simp only [hdoc, ne_eq, not_true_eq_false, and_false, or_false, Option.some.injEq,
        exists_eq_left', Corpus.posting?_eq_some_iff]
      exact and_comm
    · rw [if_neg hdoc]
      refine (or_iff_right ?_).trans (and_iff_left (Ne.symm hdoc))
      rintro ⟨-, rfl⟩
      exact hdoc rfl

/-- A document that is taken out is reflected no longer. -/
theorem exists_retract (id : Bytes) :
    ∃ ix', ix.retract id = .ok ix' ∧ ix'.Reflects a (c.erase id) := by
  obtain ⟨ix', hok, htidy, hpostings⟩ := h.tidy.exists_retract id
  refine ⟨ix', hok, htidy, fun id' ↦ ?_, fun term p ↦ ?_⟩
  · have hkeys : ∀ {β : Type} (d : Dict β), id' ∈ (d.erase id).keys ↔ id ≠ id' ∧ id' ∈ d.keys :=
      fun d ↦ by simp only [Dict.mem_keys_iff, Dict.find?_erase_eq_some_iff, exists_and_left]
    rw [documents_of_retract hok, hkeys, hkeys, h.documents]
  · rw [hpostings, List.mem_filter, h.postings, Corpus.mem_postings, Corpus.mem_postings]
    simp only [decide_eq_true_eq, Dict.find?_erase_eq_some_iff]
    constructor
    · rintro ⟨⟨fields, hfind, hp⟩, hne⟩
      exact ⟨fields, ⟨Ne.symm hne, hfind⟩, hp⟩
    · rintro ⟨fields, ⟨hne, hfind⟩, hp⟩
      exact ⟨⟨fields, hfind, hp⟩, Ne.symm hne⟩

end

end Index.Reflects

namespace Index

/-- Every change keeps an index reflecting its corpus. -/
theorem isFollowed_reflects (a : Analyzer) : IsFollowed a (fun _ ↦ True) (Reflects · a ·) where
  empty _ := ⟨IsTidy.empty.congr rfl rfl, fun _ ↦ Iff.rfl, fun _ _ ↦ Iff.rfl⟩
  publish _ _ h := h.publish
  replace _ _ h d _ := h.exists_replace d
  retract _ _ h := h.exists_retract

/-- **At the end of any history the index reflects the corpus.** -/
theorem reflects_atEnd (a : Analyzer) (history : List Move) :
    (atEnd a history).Reflects a (Corpus.atEnd history) :=
  (isFollowed_reflects a).atEnd fun _ _ _ _ ↦ trivial

end Index

end Concordance
