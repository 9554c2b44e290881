import InterfacePackage.Command.PackageManager
import InterfacePackage.Import.Source
import InterfacePackage.Package.Dependencies
import InterfacePackage.Settings.Arguments

/-!
# Configurations

A configuration is put together from layers. A layer holds values for some of the fields; laid over
a configuration it replaces those and leaves the others. The defaults lie at the bottom, the
configuration file over them, the command line on top.
-/

namespace InterfacePackage

/-- The fields of a configuration, in the order in which a file lists them. -/
inductive Field where
  | packageName
  | packageDescription
  | outDir
  | exportDir
  | interfacesDir
  | interfacesGlob
  | remappings
  | readme
  | license
  | anchor
  | modulesMarker
  | extraDependencies
  | targets
  | packageManager
deriving DecidableEq, Repr

namespace Field

/-- All fields. -/
def all : List Field :=
  [packageName, packageDescription, outDir, exportDir, interfacesDir, interfacesGlob, remappings,
    readme, license, anchor, modulesMarker, extraDependencies, targets, packageManager]

/-- The key of a field in a file. -/
def key : Field → Text
  | packageName => "packageName"
  | packageDescription => "packageDescription"
  | outDir => "outDir"
  | exportDir => "exportDir"
  | interfacesDir => "interfacesDir"
  | interfacesGlob => "interfacesGlob"
  | remappings => "remappings"
  | readme => "readme"
  | license => "license"
  | anchor => "anchor"
  | modulesMarker => "modulesMarker"
  | extraDependencies => "extraDependencies"
  | targets => "targets"
  | packageManager => "packageManager"

/-- The field of a key. -/
def ofKey? (t : Text) : Option Field := all.find? (·.key = t)

/-- The values of a field. -/
@[reducible] def Value : Field → Type
  | extraDependencies => Dependencies
  | targets => List Text
  | packageManager => Option PackageManager
  | _ => Text

end Field

/-- Values for some of the fields. -/
def Layer : Type := (f : Field) → Option f.Value

namespace Layer

/-- No values. -/
def empty : Layer := fun _ => none

/-- A layer with one more value. -/
def set (l : Layer) (f : Field) (v : f.Value) : Layer := fun g =>
  if h : f = g then some (h ▸ v) else l g

end Layer

/-- What an export is to do. Relative paths start from the workspace. -/
structure Config where
  /-- The name of the exported package. -/
  packageName : Text
  /-- Its description. -/
  packageDescription : Text
  /-- The compiler's output directory. -/
  outDir : Path
  /-- The directory the package is assembled in. It is emptied first. -/
  exportDir : Path
  /-- The root of the interface files. -/
  interfacesDir : Path
  /-- Which files below it are interfaces. -/
  interfacesGlob : Text
  /-- The remappings file. -/
  remappings : Path
  /-- The file that becomes the package's readme. -/
  readme : Path
  /-- The file that becomes the package's license. -/
  license : Path
  /-- The path segment that roots the source tree. -/
  anchor : Text
  /-- The text that marks a directory of installed packages. -/
  modulesMarker : Text
  /-- Dependencies on top of the project's own. -/
  extraDependencies : Dependencies
  /-- The targets that bindings are generated for. -/
  targets : List Text
  /-- The package manager; the one in use is told from the project when there is none. -/
  packageManager : Option PackageManager

namespace Config

/-- The configuration without a file. -/
def standard : Config where
  packageName := "opoo-core"
  packageDescription := "Optimistic Oracle Interfaces and needed integration files"
  outDir := "out"
  exportDir := "npm"
  interfacesDir := "solidity/interfaces"
  interfacesGlob := "**/*.sol"
  remappings := "remappings.txt"
  readme := "interfaces-readme.md"
  license := "LICENSE"
  anchor := "solidity"
  modulesMarker := "node_modules/"
  extraDependencies := .ofList
    [("@ethersproject/abi", "5.7.0"), ("@ethersproject/providers", "5.7.2"), ("bn.js", "5.2.1"),
      ("ethers", "6.0.3"), ("web3-core", "1.9.0")]
  targets := ["web3-v1", "ethers-v6"]
  packageManager := none

/-- A configuration with a layer over it. -/
def overlay (c : Config) (l : Layer) : Config where
  packageName := (l .packageName).getD c.packageName
  packageDescription := (l .packageDescription).getD c.packageDescription
  outDir := (l .outDir).getD c.outDir
  exportDir := (l .exportDir).getD c.exportDir
  interfacesDir := (l .interfacesDir).getD c.interfacesDir
  interfacesGlob := (l .interfacesGlob).getD c.interfacesGlob
  remappings := (l .remappings).getD c.remappings
  readme := (l .readme).getD c.readme
  license := (l .license).getD c.license
  anchor := (l .anchor).getD c.anchor
  modulesMarker := (l .modulesMarker).getD c.modulesMarker
  extraDependencies := (l .extraDependencies).getD c.extraDependencies
  targets := (l .targets).getD c.targets
  packageManager := (l .packageManager).getD c.packageManager

/-- What relocation of imports needs to know. -/
def layout (c : Config) : Import.Layout := ⟨c.anchor, c.modulesMarker⟩

/-- The directory in the package that receives the relocated sources. -/
def contractsDir (c : Config) : Path := c.exportDir.join "contracts"

/-- The directory in the package that receives the compiled interfaces. -/
def abiDir (c : Config) : Path := c.exportDir.join "abi"

/-- The pattern of the files that bindings are generated from. -/
def abiGlob (c : Config) : Text := c.abiDir ++ "/*.json"

end Config

/-- The values that a command line gives. -/
def Arguments.layer (a : Arguments) : Layer
  | .anchor => a.anchor
  | .exportDir => a.exportDir
  | .targets => if a.targets = [] then none else some a.targets
  | .packageManager => a.packageManager.map some
  | .packageName | .packageDescription | .outDir | .interfacesDir | .interfacesGlob | .remappings
  | .readme | .license | .modulesMarker | .extraDependencies => none

end InterfacePackage
