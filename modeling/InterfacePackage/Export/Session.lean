import InterfacePackage.Command.Programs
import InterfacePackage.Export.Failure
import InterfacePackage.FileTree.Access

/-!
# Sessions

What an export changes and leaves behind as it goes along: the file tree, the calls made, the
progress and the warnings reported. A step that fails keeps what was done until then.
-/

namespace InterfacePackage

/-- The state of an export. -/
structure Session where
  tree : FileTree
  /-- The calls attempted, in order. -/
  calls : List Invocation := []
  /-- The lines of progress shown, in order. -/
  progress : List Text := []
  /-- The warnings given, in order. -/
  warnings : List Text := []

namespace Export

/-- A part of an export. -/
abbrev Action := ExceptT Failure (StateM Session)

/-- Something found out about the tree as it is. -/
def inspect {α : Type} (f : FileTree → Except Failure α) : Action α := do
  match f (← get).tree with
  | .ok x => pure x
  | .error e => throw e

/-- A change of the tree; what it has changed when it fails stays changed. -/
def alter (act : FileTree.Action Unit) (wrap : Fault → Failure) : Action Unit := do
  let s ← get
  let (result, t) := act.run s.tree
  set { s with tree := t }
  match result with
  | .ok () => pure ()
  | .error e => throw (wrap e)

/-- A line of progress. -/
def report (line : Text) : Action Unit :=
  modify fun s => { s with progress := s.progress ++ [line] }

/-- Warnings. -/
def warn (lines : List Text) : Action Unit :=
  modify fun s => { s with warnings := s.warnings ++ lines }

/-- The directory above a path made if it is missing. -/
def makeParent (path : Path) : Action Unit :=
  match path.parent with
  | some parent => alter (FileTree.makeDirectories parent) (.access .create parent)
  | none => pure ()

/-- The contents of a file copied to another. -/
def copyContents (source target : Path) : Action Unit :=
  alter (FileTree.change (·.copy source target)) (.access .copy source)

/-- A file copied into a directory that is made if it is missing. -/
def copyFile (source target : Path) : Action Unit := do
  makeParent target
  copyContents source target

/-- A text written to a file. -/
def writeFile (target : Path) (text : Text) : Action Unit :=
  alter (FileTree.change (·.write target (Utf8.encode text))) (.access .write target)

end Export

end InterfacePackage
