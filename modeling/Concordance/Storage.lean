import Concordance.Archive.Reader
import Concordance.Archive.Writer
import Concordance.Place

/-!
# Files

A storage has files and directories at places. A path leads to a place if each of its names stands
in a directory. The root, the current directory and what is around it are always directories.

An index is saved by way of a second file beside the one meant, which then takes its place in one
step. So at every moment the path holds either what it held before or the whole new archive, and
whatever happens the second file does not stay.
-/

namespace Concordance

/-- The contents of the files, and the directories, by the shortest paths to them. -/
structure Storage where
  files : Dict Bytes
  directories : ByteSet
  deriving DecidableEq

namespace Storage

/-- The storage without files. -/
def empty : Storage :=
  ⟨∅, ∅⟩

/-- What every system has: the directories at the root, and the device in which nothing is found. -/
def system : Storage :=
  ⟨.ofList [(utf8 "/dev/null", [])],
    .ofList (["/bin", "/boot", "/dev", "/etc", "/home", "/lib", "/media", "/mnt", "/opt", "/proc",
      "/root", "/run", "/sbin", "/srv", "/sys", "/tmp", "/usr", "/var"].map utf8)⟩

/-- Whether there is a directory at a place. -/
def isDirectory (st : Storage) (p : Place) : Bool :=
  p.isAround || st.directories.contains p.path

/-- The place that names lead to from a place, if each of them stands in a directory. -/
def follow? (st : Storage) (p : Place) : List Bytes → Option Place
  | [] => some p
  | name :: rest =>
    if st.isDirectory p && name.length ≤ Place.longestName then st.follow? (p.enter name) rest
    else none

/-- The place that a path leads to. An empty path leads nowhere, nor does one that is too long. -/
def place? (st : Storage) (path : Bytes) : Option Place :=
  let path := Place.legible path
  if path.isEmpty || Place.longestPath < path.length then none
  else st.follow? (.start path) (Bytes.pieces Place.slash path)

/-- The storage in which each of some names, taken from a place, stands in a directory, and the
place that they lead to. -/
def paved (st : Storage) (p : Place) : List Bytes → Storage × Place
  | [] => (st, p)
  | name :: rest =>
    { st with directories := st.directories.insert p.path () }.paved (p.enter name) rest

/-- The storage in which a path leads to a place that holds a file with a content, or a directory if
there is none. -/
def mount (st : Storage) (path : Bytes) (content? : Option Bytes) : Storage :=
  let path := Place.legible path
  let (st, p) := st.paved (.start path) (Bytes.pieces Place.slash path)
  match content? with
  | some content => { st with files := st.files.insert p.path content }
  | none => { st with directories := st.directories.insert p.path () }

/-- The place that a path leads to, if a file can be made there. -/
def writable? (st : Storage) (path : Bytes) : Option Place :=
  (st.place? path).filter (!st.isDirectory ·)

/-- What can be read at a place. A directory can be opened, but nothing can be read from it. -/
def content? (st : Storage) (p : Place) : Option Bytes :=
  match st.files.find? p.path with
  | some content => some content
  | none => if st.isDirectory p then some [] else none

/-- The content of a file. -/
def read (st : Storage) (path : Bytes) : Except Error Bytes :=
  match (st.place? path).bind st.content? with
  | some content => .ok content
  | none => .error (.cannotOpen path)

/-- The storage with the content of a file set. -/
def write (st : Storage) (path content : Bytes) : Except Error Storage :=
  match st.writable? path with
  | some p => .ok { st with files := st.files.insert p.path content }
  | none => .error (.cannotOpen path)

/-- The storage without a file. -/
def remove (st : Storage) (path : Bytes) : Storage :=
  match st.place? path with
  | some p => { st with files := st.files.erase p.path }
  | none => st

/-- Why a path cannot be given to a file, by its form: it ends in no name of its own, or behind its
last name it has a slash, which only a directory may have. -/
def formFault? (path : Bytes) : Option ReplaceFault :=
  let path := Place.legible path
  if path.isEmpty then some .notFound
  else
    match ((Bytes.pieces Place.slash path).filter (!·.isEmpty)).getLast? with
    | none => some .busy
    | some name =>
      if name = Place.here ∨ name = Place.above then some .busy
      else if path.getLast? = some Place.slash then some .notDirectory
      else none

/-- The storage with a file moved to another path, where it takes the place of what is there. A
directory is not replaced. -/
def rename (st : Storage) (source target : Bytes) : Except Error Storage :=
  match formFault? target with
  | some fault => .error (.cannotReplace target fault)
  | none =>
    match st.place? source, st.place? target with
    | some old, some new =>
      if st.isDirectory new then .error (.cannotReplace target .isDirectory)
      else
        match st.files.find? old.path with
        | some content =>
          .ok { st with files := (st.files.erase old.path).insert new.path content }
        | none => .error (.cannotReplace target .notFound)
    | _, _ => .error (.cannotReplace target .notFound)

/-- The path beside `path` at which an archive is written first. -/
def draftPath (path : Bytes) : Bytes :=
  path ++ utf8 ".tmp"

/-- The archive of an index written beside a path and put in its place if `commit` says so. With the
storage comes the error, if there is one: the draft is removed in any case. -/
def save (st : Storage) (ix : Index) (path : Bytes) (commit : Bool) :
    Storage × Except Error Unit :=
  let draft := draftPath path
  match st.write draft (Archive.encode ix) with
  | .error e => (st, .error e)
  | .ok written =>
    if commit then
      match written.rename draft path with
      | .ok saved => (saved, .ok ())
      | .error e => (written.remove draft, .error e)
    else (written.remove draft, .ok ())

/-- The header and the index of the archive at a path. -/
def load (st : Storage) (path : Bytes) : Except Error (Archive.Header × Index) := do
  let content ← st.read path
  match Archive.decode content with
  | .ok found => return found
  | .error fault => throw (.archive path fault)

end Storage

end Concordance
