import InterfacePackage.Command.Runner
import InterfacePackage.FileTree.Walk
import InterfacePackage.Glob.Pattern
import InterfacePackage.Json.Problem

/-!
# Failures of an export

Everything that ends an export early, with the words, the code and the advice shown for it.
-/

namespace InterfacePackage

/-- What was being done to a path when it failed. -/
inductive Activity where
  | read
  | write
  | create
  | copy
  | remove
deriving DecidableEq, Repr

/-- An activity in words. -/
def Activity.message : Activity → Text
  | read => "read"
  | write => "write"
  | create => "create"
  | copy => "copy"
  | remove => "remove"

/-- Why an export fails. -/
inductive Failure where
  /-- An operation on the file tree fails. -/
  | access (activity : Activity) (path : Path) (fault : Fault)
  /-- A path that has to be shown is not text. -/
  | pathNotText (path : Path)
  /-- The configuration file is not what it should be. -/
  | invalidConfig (path : Path) (problem : Json.Problem)
  /-- The project's manifest is not what it should be. -/
  | invalidManifest (path : Path) (problem : Json.Problem)
  /-- The pattern for interface files cannot be read. -/
  | invalidGlob (pattern : Text) (fault : Glob.Fault)
  /-- The interface files cannot be listed. -/
  | enumeration (root : Path) (fault : FileTree.WalkFault)
  /-- Emptying the export directory would empty the workspace. -/
  | unsafeExportDir (exportDir workspace : Path)
  /-- An interface file has no name. -/
  | unnamedInterface (file : Path)
  /-- An interface has not been compiled. -/
  | missingArtifact (interface : Text) (path : Path)
  /-- No package manager is known or found. -/
  | noPackageManager
  /-- The remappings cannot be read. -/
  | remappings (path : Path) (fault : Fault)
  /-- A program fails. -/
  | program (fault : RunFault)
deriving DecidableEq, Repr

/-- A fault of a walk in words. -/
def FileTree.WalkFault.message (root : Path) : FileTree.WalkFault → Text
  | access names fault =>
    "IO error for operation on " ++ spell root names ++ ": " ++ fault.message
  | loop names ancestor =>
    "File system loop found: " ++ spell root names ++ " points to an ancestor "
      ++ spell root ancestor

namespace Failure

/-- A failure in words. -/
def message : Failure → Text
  | access activity path fault =>
    "failed to " ++ activity.message ++ " " ++ path ++ ": " ++ fault.message
  | pathNotText path => "path is not valid UTF-8: " ++ path
  | invalidConfig path problem => "invalid configuration in " ++ path ++ ": " ++ problem.message
  | invalidManifest path problem =>
    "invalid package manifest " ++ path ++ ": " ++ problem.message
  | invalidGlob pattern fault =>
    "invalid glob pattern `" ++ pattern ++ "`: error parsing glob '" ++ pattern ++ "': "
      ++ fault.message
  | enumeration root fault => "failed to enumerate interfaces: " ++ fault.message root
  | unsafeExportDir exportDir workspace =>
    "export directory " ++ exportDir ++ " contains the workspace " ++ workspace
  | unnamedInterface file => "cannot derive an interface name from " ++ file
  | missingArtifact interface path =>
    "missing compiled artifact for " ++ interface ++ ": " ++ path
  | noPackageManager => "no package manager found for codegen and install"
  | remappings path fault => "failed to read remappings from " ++ path ++ ": " ++ fault.message
  | program fault => fault.message

/-- The code a failure is known by. -/
def code (e : Failure) : Text :=
  "interfaces_exporter::" ++ match e with
    | access .. => ("io" : Text)
    | pathNotText _ => "non_utf8_path"
    | invalidConfig .. => "config"
    | invalidManifest .. => "manifest"
    | invalidGlob .. => "glob"
    | enumeration .. => "walk"
    | unsafeExportDir .. => "export_dir"
    | unnamedInterface _ => "interface_name"
    | missingArtifact .. => "missing_artifact"
    | noPackageManager => "package_manager"
    | remappings .. => "remappings"
    | program _ => "command"

/-- What to do about a failure, where that is known. -/
def advice : Failure → Option Text
  | unsafeExportDir .. => some "choose an export directory inside the project, e.g. `npm`"
  | missingArtifact .. => some "compile the project before exporting, e.g. `forge build`"
  | noPackageManager =>
    some "install yarn, npm, pnpm or bun, or pass --skip-codegen --skip-install"
  | _ => none

end Failure

end InterfacePackage
