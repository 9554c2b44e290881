import InterfacePackage.Export.Failure
import InterfacePackage.FileTree.Access
import InterfacePackage.Json.Reader
import InterfacePackage.Settings.Config

/-!
# Configuration files

How a layer is read from a file, which file that is, and what configuration results.
-/

namespace InterfacePackage

namespace Json.Reader

/-- A list of strings. -/
def texts : Reader (List Text) := list (string "a string")

/-- An object whose members are strings; the last value of a repeated key counts, at the key's first
position. -/
def dependencies : Reader Dependencies :=
  object (fun acc key => do
    colon
    return acc.insert key (← string "a string")) .empty

/-- A path. -/
def path : Reader Path := string "a UTF-8 path string"

end Json.Reader

namespace Field

open Json in
/-- A reader of a field's values. -/
def reader : (f : Field) → Reader f.Value
  | packageName | packageDescription | interfacesGlob | anchor | modulesMarker =>
    Reader.string "a string"
  | outDir | exportDir | interfacesDir | remappings | readme | license => Reader.path
  | extraDependencies => Reader.dependencies
  | targets => Reader.texts
  | packageManager => Reader.optional (Reader.name PackageManager.all)

end Field

namespace Layer

open Json in
/-- The value of a key read into a layer. The key must be that of a field without a value so far. -/
def readMember (l : Layer) (key : Text) : Reader Layer := do
  match Field.ofKey? key with
  | none => throw (.unknownField key (Field.all.map (·.key)))
  | some f =>
    if (l f).isSome then throw (.duplicateField key)
    Reader.colon
    return l.set f (← f.reader)

open Json in
/-- A reader of layers. A list may leave out fields at its end. -/
def reader : Reader Layer :=
  Reader.record "struct ExportConfig" readMember
    (Field.all.map fun f l => return l.set f (← f.reader)) (fun _ l => .ok l) empty

/-- The layer written in a text. -/
def ofText (t : Text) : Except Json.Problem Layer := Json.Reader.document reader t

/-- The layer in the file that a path denotes. -/
def load (t : FileTree) (p : Path) : Except Failure Layer := do
  let text ← (t.readText p).mapError (.access .read p)
  (ofText text).mapError (.invalidConfig p)

end Layer

namespace Config

/-- The configuration file of a workspace that is used when the command line names none. -/
def fileName : Path := "interfaces-exporter.json"

/-- The layer of the configuration file: the one that the command line names, else the workspace's
if it has one. -/
def fileLayer (t : FileTree) (workspace : Path) (a : Arguments) : Except Failure Layer :=
  match a.config with
  | some p => Layer.load t (workspace.join p)
  | none =>
    let p := workspace.join fileName
    if t.exists? p then Layer.load t p else .ok .empty

/-- The configuration of an export. -/
def resolve (t : FileTree) (workspace : Path) (a : Arguments) : Except Failure Config := do
  return (standard.overlay (← fileLayer t workspace a)).overlay a.layer

end Config

end InterfacePackage
