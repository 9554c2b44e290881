import InterfacePackage.Export.Script
import InterfacePackage.Glob.Match
import InterfacePackage.Import.Source
import InterfacePackage.Package.Summary
import InterfacePackage.Settings.Config

/-!
# Interfaces

Which files are interfaces, and how one of them gets into the package: its source relocated, its
compiled form copied.
-/

namespace InterfacePackage.Export

/-- The path of a file on a walk, if all names are text. -/
def pathOf? (root : Path) (names : List Name) : Option Path := do
  let texts ← names.mapM Utf8.decode
  return if texts = [] then root else root.join (Text.join ['/'] texts)

/-- The file of a walk if it is kept, seen from the directory of the interfaces. -/
def keepFile (root interfacesDir : Path) (keep : Path → Bool) :
    Except FileTree.WalkFault (List Name) → Except Failure (Option Path)
  | .error fault => .error (.enumeration root fault)
  | .ok names =>
    match pathOf? root names with
    | none => .error (.pathNotText (FileTree.spell root names))
    | some path =>
      match path.stripPrefix root with
      | some relative => .ok (if keep relative then some (interfacesDir.join relative) else none)
      | none => .ok none

/-- The files below `interfacesDir` whose relative path is kept, in the order of their components.
They are spelled as `interfacesDir` is. -/
def filesWhere (t : FileTree) (workspace interfacesDir : Path) (keep : Path → Bool) :
    Except Failure (List Path) := do
  let root := workspace.join interfacesDir
  let found ← (t.files root).mapM (keepFile root interfacesDir keep)
  return (found.filterMap id).mergeSort fun a b => a.compare b ≠ .gt

/-- The files below `interfacesDir` that a pattern matches. -/
def findInterfaces (t : FileTree) (workspace interfacesDir : Path) (pattern : Text) :
    Except Failure (List Path) := do
  let tokens ← (Glob.tokens pattern).mapError (.invalidGlob pattern)
  filesWhere t workspace interfacesDir fun p => Glob.isMatch tokens (Utf8.encode p)

/-- The text of a source. -/
def readSource (path : Path) : Action Text :=
  inspect fun t => (t.readText path).mapError (.access .read path)

/-- Fails unless the compiled form of an interface is there. -/
def requireArtifact (name : Text) (artifact : Path) : Action Unit :=
  inspect fun t => if t.isFile artifact then .ok () else .error (.missingArtifact name artifact)

/-- The steps of an interface's export. The relocated source is written before the compiled form is
looked for. -/
def interfaceScript (workspace : Path) (c : Config) (table : Import.Table) (file : Path) :
    Script ExportedInterface := do
  let source ← .once (readSource (workspace.join file))
  let relocated := Import.relocateSource source file table c.layout
  let contract := c.contractsDir.join ((file.stripPrefix c.interfacesDir).getD file)
  .once (makeParent (workspace.join contract))
  .once (writeFile (workspace.join contract) relocated.text)
  let some name := Import.interfaceName file | .fail (.unnamedInterface file)
  let compiled := name ++ ".json"
  let artifact := ((workspace.join c.outDir).join (file.fileName.getD name)).join compiled
  .once (requireArtifact name artifact)
  let abi := c.abiDir.join compiled
  .once (makeParent (workspace.join abi))
  .once (copyContents artifact (workspace.join abi))
  return { name, source := file, contract, abi, rewrittenImports := relocated.rewrittenLines }

/-- One interface exported with nothing in between. -/
def exportInterface (workspace : Path) (c : Config) (table : Import.Table) (file : Path) :
    Action ExportedInterface :=
  (interfaceScript workspace c table file).alone

end InterfacePackage.Export
