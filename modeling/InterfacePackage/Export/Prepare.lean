import InterfacePackage.Export.Session
import InterfacePackage.Path.Normal

/-!
# The export directory

The export directory is made if it is missing and emptied if it is there. A directory that, going by
the two spellings, holds the workspace is refused before anything is touched.
-/

namespace InterfacePackage.Export

/-- Whether a path, going by its spelling, is the start of another. -/
def encloses (outer inner : Path) : Bool :=
  (Path.confine outer.components).isPrefixOf (Path.confine inner.components)

/-- An entry of the export directory removed. `isDirectory` tells what it was when the directory was
listed. -/
def removeEntry (exportDir : Path) (name : Name) (isDirectory : Bool) : Action Unit := do
  match Utf8.decode name with
  | none => throw (.pathNotText (exportDir.join (Utf8.display name)))
  | some text =>
    let path := exportDir.join text
    if isDirectory then alter (FileTree.removeDirectory path) (.access .remove path)
    else alter (FileTree.change (·.removeFile path)) (.access .remove path)

/-- The entries of a directory, each with whether it is a directory itself. -/
def entriesOf (t : FileTree) (p : Path) : Except Fault (List (Name × Bool)) := do
  match ← t.lookup p with
  | (here, .directory) =>
    .ok ((t.names here).map fun n => (n, t.entryAt (here ++ [n]) = some .directory))
  | _ => .error .notDirectory

/-- The export directory made or emptied. -/
def prepare (workspace exportDir : Path) : Action Unit := do
  if encloses exportDir workspace then throw (.unsafeExportDir exportDir workspace)
  if (← get).tree.exists? exportDir then
    let entries ← inspect fun t => (entriesOf t exportDir).mapError (.access .read exportDir)
    entries.forM fun (name, isDirectory) => removeEntry exportDir name isDirectory
  else alter (FileTree.makeDirectories exportDir) (.access .create exportDir)

end InterfacePackage.Export
