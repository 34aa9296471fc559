import Concordance.Engine.History

/-!
# An engine and its file

An engine that is kept at a path works on files. Documents are put in and taken out, the index is
saved at the path and loaded from there, and now and then an archive is begun and given up, or a
save goes to a path where there is no directory. Beside the engine and the files stands the index
that was last saved, which is what the file should hold.
-/

namespace Concordance

namespace Storage

/-- The content of the file that a path leads to. -/
def fileAt? (st : Storage) (path : Bytes) : Option Bytes :=
  (st.place? path).bind fun p ↦ st.files.find? p.path

/-- The directory that a path names before its last slash is not there: with a slash behind it, a
path leads to a directory or nowhere. -/
def LacksDirectory (st : Storage) (path : Bytes) : Prop :=
  ∃ directory name, path = directory ++ Place.slash :: name ∧
    st.place? (directory ++ [Place.slash]) = none

end Storage

/-- An engine with the files it works on. -/
structure Keeper where
  engine : Engine
  storage : Storage
  /-- The index as it was when it was last saved. -/
  saved : Option Index := none

namespace Keeper

/-- What can be done with an engine that is kept at a path. -/
inductive Step where
  /-- Puts in a document, or several at once. -/
  | ingest (batch : List Document)
  | remove (id : Bytes)
  | search (o : SearchOptions) (query : Bytes)
  | load
  | save
  /-- Saves at another path. -/
  | saveElsewhere (other : Bytes)
  /-- Writes the archive of an index for the path, and gives it up. -/
  | abandon (index : Index)

/-- The engine and its files after a step. A step that fails leaves them as they are, but for the
draft of an archive, which is removed. -/
def after (k : Keeper) (path : Bytes) : Step → Keeper
  | .ingest batch => { k with engine := (k.engine.after (.ingest batch)).1 }
  | .remove id => { k with engine := (k.engine.after (.remove id)).1 }
  | .search _ _ => k
  | .load => { k with engine := (k.engine.after (.load k.storage path)).1 }
  | .save =>
    match k.engine.save k.storage path with
    | (storage, .ok ()) => { k with storage, saved := some k.engine.index }
    | (storage, .error _) => { k with storage }
  | .saveElsewhere other => { k with storage := (k.engine.save k.storage other).1 }
  | .abandon index => { k with storage := (k.storage.save index path false).1 }

end Keeper

end Concordance
