import InterfacePackage.Json.Skip
import InterfacePackage.Json.Value
import InterfacePackage.Settings.ConfigFile

/-!
# Manifests

What an export takes over from the project's manifest, and the manifest of the exported package.
-/

namespace InterfacePackage

/-- What carries over from a project's manifest. -/
structure ProjectManifest where
  version : Option Text := none
  keywords : Option (List Text) := none
  license : Option Text := none
  dependencies : Dependencies := .empty
deriving DecidableEq

/-- A project's manifest read in part: what has come so far. -/
structure ProjectManifest.Draft where
  version : Option (Option Text) := none
  keywords : Option (Option (List Text)) := none
  license : Option (Option Text) := none
  dependencies : Option Dependencies := none

/-- The manifest of the exported package. -/
structure PackageManifest where
  name : Text
  description : Text
  version : Option Text
  keywords : Option (List Text)
  license : Option Text
  dependencies : Dependencies
deriving DecidableEq

namespace ProjectManifest

namespace Draft

/-- What has come, with nothing for what has not. -/
def finish (d : Draft) : ProjectManifest where
  version := d.version.getD none
  keywords := d.keywords.getD none
  license := d.license.getD none
  dependencies := d.dependencies.getD .empty

open Json

/-- A version. -/
def readVersion (d : Draft) : Reader Draft :=
  return { d with version := some (← Reader.optional (Reader.string "a string")) }

/-- Keywords. -/
def readKeywords (d : Draft) : Reader Draft :=
  return { d with keywords := some (← Reader.optional Reader.texts) }

/-- A license. -/
def readLicense (d : Draft) : Reader Draft :=
  return { d with license := some (← Reader.optional (Reader.string "a string")) }

/-- Dependencies. -/
def readDependencies (d : Draft) : Reader Draft :=
  return { d with dependencies := some (← Reader.dependencies) }

/-- The value of a key, unless its field has come before. -/
def once (came : Bool) (key : Text) (read : Reader Draft) : Reader Draft := do
  if came then throw (.duplicateField key)
  Reader.colon
  read

/-- The value of a key; that of an unknown one is passed over. -/
def readMember (d : Draft) (key : Text) : Reader Draft :=
  if key = "version" then once d.version.isSome key d.readVersion
  else if key = "keywords" then once d.keywords.isSome key d.readKeywords
  else if key = "license" then once d.license.isSome key d.readLicense
  else if key = "dependencies" then once d.dependencies.isSome key d.readDependencies
  else do
    Reader.colon
    Reader.skip
    return d

/-- A list of fields may only leave out the dependencies. -/
def short (count : Nat) (d : Draft) : Except Problem Draft :=
  if count < 3 then .error (.wrongLength count "struct ProjectManifest with 4 elements")
  else .ok d

/-- A reader of manifests. -/
def reader : Reader Draft :=
  Reader.record "struct ProjectManifest" readMember
    [readVersion, readKeywords, readLicense, readDependencies] short {}

end Draft

/-- The manifest written in a text. -/
def ofText (t : Text) : Except Json.Problem ProjectManifest :=
  (Json.Reader.document Draft.reader t).map Draft.finish

/-- The manifest in the file that a path denotes. -/
def load (t : FileTree) (p : Path) : Except Failure ProjectManifest := do
  let text ← (t.readText p).mapError (.access .read p)
  (ofText text).mapError (.invalidManifest p)

end ProjectManifest

namespace PackageManifest

/-- The manifest of a package: the project's, named and described as configured, with the extra
dependencies laid over the project's own. -/
def assemble (project : ProjectManifest) (c : Config) : PackageManifest where
  name := c.packageName
  description := c.packageDescription
  version := project.version
  keywords := project.keywords
  license := project.license
  dependencies := project.dependencies.overlay c.extraDependencies.entries

/-- A manifest as a JSON value. What is absent is left out. -/
def toJson (m : PackageManifest) : Json :=
  .object <|
    [("name".toList, .string m.name), ("description".toList, .string m.description)]
    ++ (m.version.map fun v => ("version".toList, Json.string v)).toList
    ++ (m.keywords.map fun ks => ("keywords".toList, Json.list (ks.map .string))).toList
    ++ (m.license.map fun l => ("license".toList, Json.string l)).toList
    ++ [("dependencies".toList,
          .object (m.dependencies.entries.map fun (name, version) => (name, .string version)))]

/-- A manifest as it is written, four blanks deeper with each level. -/
def text (m : PackageManifest) : Text := m.toJson.document 4

end PackageManifest

end InterfacePackage
