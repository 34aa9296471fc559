import Concordance.Bytes

/-!
# Places

A path is a text in which names stand between slashes. It leads, name by name, from the current
directory, or from the root if it begins with a slash, to a place in the tree of directories.
Several paths lead to one place: an empty name or a single dot stays where it is, and two dots go
back out.

A place is the list of names that are left when all this is done, so two paths name the same file
exactly if they lead to the same place. What lies outside the current directory has no known name
there, and is reached by names of two dots, which no other name follows back.
-/

namespace Concordance

/-- A place in the tree of directories: the names that lead there from the root, or from the current
directory, the last of them first. -/
structure Place where
  absolute : Bool
  names : List Bytes
  deriving DecidableEq, Repr

namespace Place

/-- The byte between the names of a path. -/
def slash : UInt8 := 47

/-- The name that stays. -/
def here : Bytes := utf8 "."

/-- The name that goes out. -/
def above : Bytes := utf8 ".."

/-- The number of bytes that a name has at most. -/
def longestName : Nat := 255

/-- The number of bytes that a path has at most. -/
def longestPath : Nat := 4095

/-- What counts of a path. It ends at a zero byte. -/
def legible (path : Bytes) : Bytes :=
  path.takeWhile (· != 0)

/-- Where the way along a path begins. -/
def start (path : Bytes) : Place :=
  ⟨path.head? == some slash, []⟩

/-- The place around a place. The root is around itself. -/
def outer (p : Place) : Place :=
  match p.names with
  | [] => if p.absolute then p else { p with names := [above] }
  | name :: rest => { p with names := if name = above then above :: name :: rest else rest }

/-- The place that a name leads to. -/
def enter (p : Place) (name : Bytes) : Place :=
  if name.isEmpty || name = here then p
  else if name = above then p.outer
  else { p with names := name :: p.names }

/-- The shortest path to a place. The current directory has the empty one. -/
def path (p : Place) : Bytes :=
  (if p.absolute then [slash] else []) ++ Bytes.joined [slash] p.names.reverse

/-- Whether a place is the root or the current directory, or around that. -/
def isAround (p : Place) : Bool :=
  p.names.all (· == above)

end Place

end Concordance
