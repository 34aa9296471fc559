import Concordance.Index.Update

/-!
# The history of an index

An index changes by batches that are added, by documents that are removed, by being cleared, and by
taking over another index. A change that fails leaves the index as it is.
-/

namespace Concordance

/-- A change of an index. -/
inductive Change where
  | add (batch : List Document)
  | remove (id : Bytes)
  | clear
  /-- Takes over an index from elsewhere, version and all. -/
  | restore (index : Index)

namespace Index

/-- The index after a change, if the change succeeds. -/
def change (ix : Index) (a : Analyzer) : Change → Except Error Index
  | .add batch => ix.add a batch
  | .remove id => return (← ix.remove id).getD ix
  | .clear => .ok ix.clear
  | .restore index => .ok index

/-- The index after a change, and the error if it failed. -/
def after (ix : Index) (a : Analyzer) (c : Change) : Index × Option Error :=
  match ix.change a c with
  | .ok next => (next, none)
  | .error e => (ix, some e)

/-- The index after a history of changes, failed ones included. -/
def afterAll (ix : Index) (a : Analyzer) (history : List Change) : Index :=
  history.foldl (fun ix c ↦ (ix.after a c).1) ix

end Index

end Concordance
