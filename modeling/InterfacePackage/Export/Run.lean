import InterfacePackage.Export.Interfaces
import InterfacePackage.Export.Prepare
import InterfacePackage.Package.Manifest
import InterfacePackage.Settings.ConfigFile

/-!
# Exports

A whole export: the package is assembled in the export directory, then bindings are generated and
dependencies installed by the package manager. Programs run only on a complete package.
-/

namespace InterfacePackage.Export

/-- The package's manifest, readme and license. -/
def writeFront (workspace exportDir : Path) (c : Config) : Action Unit := do
  let project ← inspect (ProjectManifest.load · (workspace.join "package.json"))
  writeFile (exportDir.join "package.json") (PackageManifest.assemble project c).text
  copyFile (workspace.join c.readme) (exportDir.join "README.md")
  copyFile (workspace.join c.license) (exportDir.join "LICENSE")

/-- The remappings of a project. -/
def loadRemappings (p : Path) : Action Import.Table := do
  let text ← inspect fun t => (t.readText p).mapError (.remappings p)
  warn ((Import.Table.missingDestinations text).map (·.message))
  return .ofText text

/-- The interfaces found and exported side by side. -/
def fillPackage (workspace : Path) (c : Config) (table : Import.Table) (turns : List Nat) :
    Action (List ExportedInterface) := do
  let files ← inspect (findInterfaces · workspace c.interfacesDir c.interfacesGlob)
  let interfaces ← sideBySide turns (files.map (interfaceScript workspace c table))
  report ("Copied " ++ Text.ofNat interfaces.length ++ " interfaces")
  return interfaces

/-- The interfaces brought into a package that has its front. -/
def packInterfaces (workspace : Path) (c : Config) (turns : List Nat) :
    Action (List ExportedInterface) := do
  let table ← loadRemappings (workspace.join c.remappings)
  fillPackage workspace c table turns

/-- The package put into the prepared directory. -/
def pack (workspace : Path) (c : Config) (turns : List Nat) :
    Action (List ExportedInterface) := do
  writeFront workspace (workspace.join c.exportDir) c
  packInterfaces workspace c turns

/-- The package assembled in the export directory; the interfaces in it. -/
def assemble (workspace : Path) (c : Config) (turns : List Nat) :
    Action (List ExportedInterface) := do
  prepare workspace (workspace.join c.exportDir)
  pack workspace c turns

/-- The package manager of an export: the configured one, else the one whose lock file is nearest,
else the first whose program is there. -/
def managerOf? (programs : Programs) (t : FileTree) (workspace : Path) (c : Config) :
    Option PackageManager :=
  c.packageManager
    <|> PackageManager.detect t workspace
    <|> PackageManager.preference.find? fun m => (programs.find? m).isSome

/-- A runner for an export. -/
def runnerFor (programs : Programs) (t : FileTree) (workspace : Path) (c : Config) :
    Except Failure Runner := do
  match managerOf? programs t workspace c with
  | none => .error .noPackageManager
  | some manager =>
    match programs.find? manager with
    | none => .error (.program (.notInstalled manager))
    | some program => .ok ⟨manager, program, workspace⟩

/-- A request to a runner, with the call it makes put on record. -/
def call (programs : Programs) (r : Runner) (q : Request) : Action Unit := do
  let s ← get
  set { s with calls := s.calls ++ [r.invocation q] }
  match r.request programs.execute s.calls q with
  | .ok _ => pure ()
  | .error fault => throw (.program fault)

/-- Bindings generated for a target. -/
def generate (programs : Programs) (r : Runner) (c : Config) (target : Text) : Action Unit := do
  report ("Generating types for " ++ target)
  call programs r (.generate target (c.exportDir.join target) c.abiGlob)

/-- The package's dependencies installed. -/
def install (programs : Programs) (r : Runner) (exportDir : Path) : Action Unit := do
  report "Installing package dependencies"
  call programs r (.install exportDir)

/-- What is left to programs, as far as it is not skipped. -/
def finish (programs : Programs) (workspace : Path) (a : Arguments) (c : Config) :
    Action Unit := do
  if !(a.skipCodegen && a.skipInstall) then
    let r ← inspect (runnerFor programs · workspace c)
    if !a.skipCodegen then c.targets.forM (generate programs r c)
    if !a.skipInstall then install programs r (workspace.join c.exportDir)

/-- An export as a command line asks for it, run in the directory `current`. The turns by which the
interfaces are exported are the machine's choice. -/
def run (programs : Programs) (current : Path) (a : Arguments) (turns : List Nat := []) :
    Action Summary := do
  let workspace := current.join a.workspace
  let c ← inspect (Config.resolve · workspace a)
  let interfaces ← assemble workspace c turns
  finish programs workspace a c
  return {
    exportDir := c.exportDir
    interfaces
    generatedTargets := if a.skipCodegen then [] else c.targets
    dependenciesInstalled := !a.skipInstall }

end InterfacePackage.Export
