import InterfacePackage.FileTree.Resolve

/-!
# Walks

All files below a directory, links followed. A link into a directory that the walk is already in is
a fault, so every walk ends.
-/

namespace InterfacePackage.FileTree

/-- Why a walk fails. Places on the walk are given by the names from its root. -/
inductive WalkFault where
  /-- An entry cannot be looked at. -/
  | access (names : List Name) (fault : Fault)
  /-- A link leads back to a directory that contains it. -/
  | loop (names ancestor : List Name)
deriving DecidableEq, Repr

/-- A directory the walk is in: where it stands, and the names that led there. -/
structure Frame where
  place : Place
  names : List Name
deriving DecidableEq, Repr

/-- The frames from the directory `frame` down to the one that holds the last of `names`, innermost
first. -/
def framesTo (frame : Frame) (names : List Name) : List Frame :=
  (List.range names.length).reverse.map fun k =>
    ⟨frame.place ++ names.take k, frame.names ++ names.take k⟩

/-- The files below a directory, in the order of their places, each with the names that lead to it
from the root of the walk. Such names are resolved by `look`, and `fits` tells whether the path with
them is short enough for that; `outer` are the frames around the directory. At most `depth` links to
directories are entered one inside the other. -/
def filesBelow (t : FileTree) (fits : List Name → Bool)
    (look : List Name → Except Fault (Place × Entry)) :
    (depth : Nat) → (outer : List Frame) → Frame → List (Except WalkFault (List Name))
  | 0, _, _ => []
  | depth + 1, outer, frame =>
    (t.below frame.place).flatMap fun (p, e) =>
      let tail := p.drop frame.place.length
      let names := frame.names ++ tail
      match e with
      | .file _ => [.ok names]
      | .directory => if fits names then [] else [.error (.access names .nameTooLong)]
      | .link _ =>
        match look names with
        | .error fault => [.error (.access names fault)]
        | .ok (there, .directory) =>
          let frames := framesTo frame tail ++ outer
          match frames.find? (·.place = there) with
          | some ancestor => [.error (.loop names ancestor.names)]
          | none => filesBelow t fits look depth frames ⟨there, names⟩
        | .ok _ => [.ok names]

/-- Whether a path with names after it is short enough to be looked up. -/
def fits (root : Path) : List Name → Bool
  | [] => (Utf8.encode root).length ≤ pathLimit
  | n :: rest =>
    let directory := (Utf8.encode (root.join [])).length
    rest.foldl (fun size n => size + 1 + n.length) (directory + n.length) ≤ pathLimit

/-- The files below the directory that `root` denotes; `root` itself, with no names, if it denotes a
file. -/
def files (t : FileTree) (root : Path) : List (Except WalkFault (List Name)) :=
  let look names :=
    if fits root names then
      t.lookupFrom (t.startOf root) (Step.ofPath root ++ names.map Step.into)
    else .error .nameTooLong
  match t.lookupLink root with
  | .error fault => [.error (.access [] fault)]
  | .ok _ =>
    match t.lookup root with
    | .error fault => [.error (.access [] fault)]
    | .ok (here, .directory) => t.filesBelow (fits root) look (t.entries.size + 2) [] ⟨here, []⟩
    | .ok _ => [.ok []]

/-- A place on a walk as it is shown. -/
def spell (root : Path) (names : List Name) : Path :=
  if names = [] then root else root.join (Text.join ['/'] (names.map Utf8.display))

end InterfacePackage.FileTree
