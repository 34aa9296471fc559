import Concordance.Proofs.EngineHistory
import Concordance.Text.Table

/-!
# Saving and loading

An index that an engine has made of documents has everything that the reader of an archive asks for
but one thing: postings are sound, documents and postings agree, and the number of tokens is that of
the documents, whatever was added and removed. Nothing is asked of the lengths of identifiers and
names of fields when documents are added, nor when an archive is written; the reader takes strings
up to a greatest length only. So what has been saved can be loaded exactly if its strings are not
too long (`load_after_save`).
-/

namespace Concordance

namespace Index

/-- **The number of tokens is kept** when documents are put in and taken out. -/
theorem isKept_tokens {a : Analyzer} {admits : Document → Prop} {isFree : Bytes → Prop}
    (hfree : ∀ d, admits d → isFree d.id) :
    IsKept a admits isFree fun ix ↦ ix.tokens = tokenCount ix.documents where
  publish _ htokens := htokens
  retract ix ix' id _ _ htokens hok := by
    rcases hfind : ix.documents.find? id with _ | d
    · rw [retract_of_none hfind] at hok
      rw [← Except.ok.inj hok, htokens]
    · obtain ⟨terms, rfl⟩ := exists_terms_of_retract hfind hok
      show ix.tokens - d.length.toUInt64 = _
      rw [htokens, tokenCount_eq_add hfind, UInt64.add_comm, UInt64.add_sub_cancel]
  record ix d _ _ htokens hnew := by
    show ix.tokens + _ = tokenCount (ix.documents.insert _ _)
    rw [tokenCount_insert (Dict.find?_eq_none_iff.1 hnew), htokens]
  free := hfree

/-- An index as documents make it of an empty one: its documents and postings agree, its postings
are sound, and the number of tokens is that of the documents. -/
structure IsExact (ix : Index) : Prop where
  whole : ix.IsWhole
  tokens : ix.tokens = tokenCount ix.documents

theorem IsExact.empty : IsExact empty :=
  ⟨IsTidy.empty.isWhole fun _ ↦ nofun, rfl⟩

theorem IsExact.storable {ix : Index} (h : ix.IsExact) (hcounts : ix.IsCountable) : ix.Storable :=
  h.whole.sound.storable h.tokens hcounts

end Index

namespace Engine

variable {settings : Settings} {e₀ : Engine}

/-- **An update keeps an index exact.** -/
theorem isExact_after {e : Engine} (h : e.index.IsExact) {action : Action}
    (haction : action.Updates (·.CanBeCounted e.analyzer) fun _ ↦ True) :
    (e.after action).1.index.IsExact := by
  have hkept := (Index.isKept_isSound e.analyzer).and (Index.isKept_tokens fun _ _ ↦ trivial)
  obtain ⟨htidy, hp, htokens⟩ := isTidy_after_update hkept haction h.whole.isTidy
    ⟨h.whole.isSound_of_mem_postings, h.tokens⟩
  exact ⟨htidy.isWhole hp, htokens⟩

/-- **What an engine makes of documents can be stored**, if it can be counted. -/
theorem storable_afterAll [Orthography] (h : ofSettings settings = .ok e₀) {history : List Action}
    (hhistory : ∀ action ∈ history, action.Updates (·.CanBeCounted e₀.analyzer) fun _ ↦ True)
    (hcounts : (e₀.afterAll history).index.IsCountable) :
    (e₀.afterAll history).index.Storable := by
  have hempty : e₀.index.IsExact := (fresh_of_ofSettings h).2 ▸ .empty
  have hinv := inv_afterAll (P := fun e ↦ e.analyzer = e₀.analyzer ∧ e.index.IsExact)
    (fun action hmem e he ↦ ⟨(analyzer_after e action).trans he.1,
      isExact_after he.2 (he.1.symm ▸ hhistory action hmem)⟩) ⟨rfl, hempty⟩
  exact hinv.2.storable hcounts

/-- What is loaded after an index has been saved is what its archive is read as. -/
theorem load_of_save {e : Engine} {st st' : Storage} {path : Bytes}
    (hsave : e.save st path = (st', .ok ())) (fresh : Engine) : fresh.load st' path =
      match Archive.decode (Archive.encode e.index) with
      | .ok found => .ok { fresh with index := found.2 }
      | .error fault => .error (.archive path fault) := by
  rw [load, Storage.load_of_read (Storage.read_of_save hsave)]
  cases Archive.decode (Archive.encode e.index) <;> rfl

/-- **What has been saved can be loaded exactly if its strings fit.** After any history of documents
that are put in and taken out, with numbers that can be counted, an engine saves its index. If no
identifier, name of a field or term is longer than what is read, any other engine that loads it has
the index; and if one is, the reader refuses what the writer wrote. -/
theorem load_after_save [Orthography] (h : ofSettings settings = .ok e₀) {history : List Action}
    (hhistory : ∀ action ∈ history, action.Updates (·.CanBeCounted e₀.analyzer) fun _ ↦ True)
    (hcounts : (e₀.afterAll history).index.IsCountable)
    (hstrings : (e₀.afterAll history).index.AllStrings Bytes.CanBeMeasured) {st st' : Storage}
    {path : Bytes} (hsave : (e₀.afterAll history).save st path = (st', .ok ())) (fresh : Engine) :
    ((e₀.afterAll history).index.AllStrings Bytes.Fits →
      fresh.load st' path = .ok { fresh with index := (e₀.afterAll history).index }) ∧
    (¬ (e₀.afterAll history).index.AllStrings Bytes.Fits →
      fresh.load st' path = .error (.archive path .oversizedString)) := by
  have hreads := Archive.ReadsIf.archive (storable_afterAll h hhistory hcounts) hstrings
  have hload := load_of_save hsave fresh
  rw [Archive.decode, ← List.append_nil (Archive.encode _)] at hload
  constructor
  · intro hfits
    rw [hload, hreads.reads hfits]
    rfl
  · intro hfits
    rw [hload, hreads.refuses hfits]
    rfl

/-- An identifier with one byte more than is read. -/
theorem load_after_save_long_identifier :
    let id : Bytes := List.replicate (2 ^ 24 + 1) 97
    let e₀ : Engine := ⟨{}, {}, .tfidf, ⟨[]⟩, .empty⟩
    let history : List Action := [.ingest [⟨id, .ofList [(utf8 "title", utf8 "-")]⟩]]
    let ix := (e₀.afterAll history).index
    let path := utf8 "index.tsx"
    let st : Storage := ⟨.ofList [(path, Archive.encode ix)], ∅⟩
    ofSettings {} = .ok e₀ ∧
      (∀ action ∈ history, action.Updates (·.CanBeCounted {}) fun _ ↦ True) ∧ ix.IsCountable ∧
      ix.AllStrings Bytes.CanBeMeasured ∧ (e₀.afterAll history).save .empty path = (st, .ok ()) ∧
      ¬ ix.AllStrings Bytes.Fits ∧ e₀.load st path = .error (.archive path .oversizedString) := by
  intro id e₀ history ix path st
  have hid : id = 97 :: List.replicate (2 ^ 24) 97 := List.replicate_succ
  have hlength : id.length = 2 ^ 24 + 1 := List.length_replicate
  have hix : ix = ⟨∅, .ofList [(id, ⟨.ofList [(utf8 "title", 0)], []⟩)], 0, 1⟩ := by
    -- the index is that for any identifier that is not empty
    have hany : ∀ b s, (e₀.afterAll
      [.ingest [⟨b :: s, .ofList [(utf8 "title", utf8 "-")]⟩]]).index =
        ⟨∅, .ofList [(b :: s, ⟨.ofList [(utf8 "title", 0)], []⟩)], 0, 1⟩ := fun _ _ ↦ rfl
    simp only [ix, history, hid]
    exact hany _ _
  have hsettings : ofSettings {} = .ok e₀ := by rfl
  have hhistory : ∀ action ∈ history, action.Updates (·.CanBeCounted {}) fun _ ↦ True :=
    List.forall_mem_singleton.2 (List.forall_mem_singleton.2 (by decide))
  have hcounts : ix.IsCountable := by
    rw [hix]
    exact ⟨by decide, List.forall_mem_singleton.2 (by decide),
      List.forall_mem_singleton.2 (by decide),
      by decide, nofun, nofun, nofun⟩
  have hstrings : ix.AllStrings Bytes.CanBeMeasured := by
    rw [hix]
    refine ⟨List.forall_mem_singleton.2 ⟨?_, ?_, nofun⟩, nofun⟩
    · show id.length < 2 ^ 32
      rw [hlength]
      decide
    · exact List.forall_mem_singleton.2 (by decide)
  have hfits : ¬ ix.AllStrings Bytes.Fits := by
    rw [hix]
    intro hall
    have hid : id.length ≤ Archive.maxStringLength.toNat := (hall.1 _ List.mem_cons_self).1
    rw [hlength] at hid
    exact absurd hid (by decide)
  have hsave : (e₀.afterAll history).save .empty path = (st, .ok ()) := by rfl
  exact ⟨hsettings, hhistory, hcounts, hstrings, hsave, hfits,
    (load_after_save hsettings hhistory hcounts hstrings hsave e₀).2 hfits⟩

end Engine

end Concordance
