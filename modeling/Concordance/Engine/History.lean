import Concordance.Engine

/-!
# The history of an engine

An engine changes by batches that are ingested, by documents that are removed, by classes of
synonyms that are defined, and by loading an index from a file. An action that fails leaves the
engine as it is. A search changes nothing, nor does saving, so they are no part of a history.
-/

namespace Concordance

namespace Engine

/-- What can be done to an engine. -/
inductive Action where
  | ingest (batch : List Document)
  | remove (id : Bytes)
  | define (members : ByteSet)
  /-- Takes over the index that is saved at a path, in a storage as it is then. -/
  | load (storage : Storage) (path : Bytes)

/-- The engine after an action, if the action succeeds. -/
def act (e : Engine) : Action → Except Error Engine
  | .ingest batch => e.ingest batch
  | .remove id => e.remove id
  | .define members => e.define members
  | .load storage path => e.load storage path

/-- The engine after an action, and the error if it failed. -/
def after (e : Engine) (action : Action) : Engine × Option Error :=
  match e.act action with
  | .ok next => (next, none)
  | .error fault => (e, some fault)

/-- The engine after a history of actions, failed ones included. -/
def afterAll (e : Engine) (history : List Action) : Engine :=
  history.foldl (fun e action ↦ (e.after action).1) e

end Engine

end Concordance
