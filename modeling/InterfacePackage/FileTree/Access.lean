import InterfacePackage.FileTree.Resolve

/-!
# Reading and changing a file tree

Every operation takes a path and resolves it in the tree as it is at that moment. An action may fail
after it has changed the tree; what it did until then stays.
-/

namespace InterfacePackage

/-- A change of a file tree that may fail half-way. -/
abbrev FileTree.Action := ExceptT Fault (StateM FileTree)

namespace FileTree

/-! ## Reading -/

/-- The contents of the file that a path denotes. -/
def read (t : FileTree) (p : Path) : Except Fault Bytes := do
  match ← t.lookup p with
  | (_, .file content) => .ok content
  | _ => .error .isDirectory

/-- The contents of the file that a path denotes, as text. -/
def readText (t : FileTree) (p : Path) : Except Fault Text := do
  match Utf8.decode (← t.read p) with
  | some text => .ok text
  | none => .error .notText

/-- The names in the directory that a path denotes. -/
def list (t : FileTree) (p : Path) : Except Fault (List Name) := do
  match ← t.lookup p with
  | (here, .directory) => .ok (t.names here)
  | _ => .error .notDirectory

/-! ## Single changes -/

/-- The tree with a new directory. -/
def makeDirectory (t : FileTree) (p : Path) : Except Fault FileTree := do
  match ← t.owner p with
  | (_, none) => .error .alreadyExists
  | (here, some n) =>
    match t.entryAt (here ++ [n]) with
    | some _ => .error .alreadyExists
    | none => .ok (t.put (here ++ [n]) .directory)

/-- The tree with a file written, through a link if the path ends in one. -/
def write (t : FileTree) (p : Path) (content : Bytes) : Except Fault FileTree := do
  let here ← t.place p
  match t.entryAt here with
  | some .directory => .error .isDirectory
  | _ => .ok (t.put here (.file content))

/-- The tree with a regular file copied. The target is emptied before the source is read, so a file
copied onto itself is lost. -/
def copy (t : FileTree) (source target : Path) : Except Fault FileTree := do
  match ← t.lookup source with
  | (there, .file content) =>
    let here ← t.place target
    match t.entryAt here with
    | some .directory => .error .isDirectory
    | _ => .ok (t.put here (.file (if here = there then [] else content)))
  | _ => .error .notRegular

/-- The tree without the file or the link that a path names. -/
def removeFile (t : FileTree) (p : Path) : Except Fault FileTree := do
  match ← t.lookupLink p with
  | (_, .directory) => .error .isDirectory
  | (here, _) => .ok (t.erase here)

/-- The tree without the directory that a path names, which stays where the path no longer leads
to it. -/
def removeEmptied (t : FileTree) (p : Path) : Except Fault FileTree :=
  match t.lookupLink p with
  | .ok (here, .directory) => .ok (t.erase here)
  | .ok _ => .error .notDirectory
  | .error .notFound => .ok t
  | .error e => .error e

/-! ## Actions -/

/-- A single change as an action. -/
def change (f : FileTree → Except Fault FileTree) : Action Unit := do
  match f (← get) with
  | .ok t => set t
  | .error e => throw e

/-- A directory made unless there is one already. -/
def ensureDirectory (p : Path) : Action Unit := do
  match (← get).makeDirectory p with
  | .ok t => set t
  | .error e => if (← get).isDirectory p then pure () else throw e

/-- A directory made, after at most `levels` directories above it if they are missing. -/
def makeChain : (levels : Nat) → Path → Action Unit
  | 0, p => ensureDirectory p
  | levels + 1, p => do
    if p = [] then pure ()
    else match (← get).makeDirectory p, p.parent with
      | .error .notFound, some above => makeChain levels above; ensureDirectory p
      | _, _ => ensureDirectory p

/-- A directory and all that are missing above it made. A path has no more levels than characters.
-/
def makeDirectories (p : Path) : Action Unit := makeChain (p.length + 1) p

/-- A directory removed with all that is below it; links in it are removed, not followed. It is
emptied first, and then looked up again under its path. -/
def removeDirectory (p : Path) : Action Unit := do
  match (← get).lookupLink p with
  | .ok (here, .directory) =>
    modify (·.clear here)
    change (·.removeEmptied p)
  | .ok (here, .link _) => modify (·.erase here)
  | .ok _ => throw .notDirectory
  | .error e => throw e

end FileTree

end InterfacePackage
