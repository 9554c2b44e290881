import InterfacePackage.Path.Basic
import InterfacePackage.Text.Utf8
import Std.Data.ExtTreeMap

/-!
# File trees

A file tree maps places, lists of names from the root down, to what stands there. The map is ordered
by place, so a directory comes before all that is below it and names come in byte order. Two trees
with the same entries are equal (`FileTree.ext_entryAt`).
-/

namespace InterfacePackage

/-- The name of a file, a directory or a link. It need not be text. -/
abbrev Name := Bytes

/-- Where something stands: the names from the root down to it. -/
abbrev Place := List Name

/-- What stands at a place. -/
inductive Entry where
  /-- A regular file. -/
  | file (content : Bytes)
  /-- A directory. -/
  | directory
  /-- A symbolic link, with its target as written. -/
  | link (target : Path)
deriving DecidableEq, Repr

/-- What stands where, the root left out. -/
abbrev Entries := Std.ExtTreeMap Place Entry compare

/-- A file tree as a program sees it that runs in one of its directories. -/
structure FileTree where
  /-- Everything below the root. -/
  entries : Entries
  /-- The directory that relative paths start from. -/
  start : Place

/-- Why an operation on a file tree fails. -/
inductive Fault where
  | notFound
  | alreadyExists
  | notDirectory
  | isDirectory
  | tooManyLinks
  /-- A name or a path is longer than any can be. -/
  | nameTooLong
  /-- A path holds the character zero, which no name can hold. -/
  | zeroInName
  /-- The contents of a file are not UTF-8. -/
  | notText
  /-- What is to be copied is not a regular file. -/
  | notRegular
deriving DecidableEq, Repr

namespace Fault

/-- The operating system's text for a fault. -/
def message : Fault → Text
  | notFound => "No such file or directory (os error 2)"
  | alreadyExists => "File exists (os error 17)"
  | notDirectory => "Not a directory (os error 20)"
  | isDirectory => "Is a directory (os error 21)"
  | tooManyLinks => "Too many levels of symbolic links (os error 40)"
  | nameTooLong => "File name too long (os error 36)"
  | zeroInName => "file name contained an unexpected NUL byte"
  | notText => "stream did not contain valid UTF-8"
  | notRegular => "the source path is neither a regular file nor a symlink to a regular file"

end Fault

namespace FileTree

/-- What stands at a place. The root is always a directory. -/
def entryAt (t : FileTree) (p : Place) : Option Entry :=
  if p = [] then some .directory else t.entries[p]?

/-- The tree with an entry put at a place. -/
def put (t : FileTree) (p : Place) (e : Entry) : FileTree :=
  { t with entries := t.entries.insert p e }

/-- The tree without what stands at a place. -/
def erase (t : FileTree) (p : Place) : FileTree :=
  { t with entries := t.entries.erase p }

/-- Whether `q` lies below `p`. -/
def isBelow (p q : Place) : Bool := p.isPrefixOf q && p ≠ q

/-- The tree without anything below a place. -/
def clear (t : FileTree) (p : Place) : FileTree :=
  { t with entries := t.entries.filter fun q _ => !isBelow p q }

/-- Everything below the root, parents before children and siblings in byte order. -/
def toList (t : FileTree) : List (Place × Entry) := t.entries.toList

/-- Everything below a place, in the same order. -/
def below (t : FileTree) (p : Place) : List (Place × Entry) :=
  t.toList.filter fun (q, _) => isBelow p q

/-- The names in a directory, in byte order. -/
def names (t : FileTree) (p : Place) : List Name :=
  (t.below p).filterMap fun (q, _) => if q.dropLast = p then q.getLast? else none

/-- Trees that hold the same at every place, and start at the same one, are equal. -/
theorem ext_entryAt {s t : FileTree} (hroot : s.entries[([] : Place)]? = t.entries[([] : Place)]?)
    (hentry : ∀ p, s.entryAt p = t.entryAt p) (hstart : s.start = t.start) : s = t := by
  obtain ⟨se, ss⟩ := s
  obtain ⟨te, ts⟩ := t
  have hentries : se = te := Std.ExtTreeMap.ext_getElem? fun p => by
    by_cases hp : p = []
    · subst hp; exact hroot
    · simpa [entryAt, hp] using hentry p
  subst hentries
  subst hstart
  rfl

end FileTree

end InterfacePackage
