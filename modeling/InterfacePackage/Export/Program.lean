import InterfacePackage.Export.Run
import InterfacePackage.Settings.Usage

/-!
# The program

What a command line comes to: an exit code, what is printed, and the session it leaves.
-/

namespace InterfacePackage

/-- What the program leaves when it ends. -/
structure Ending where
  /-- Zero for success, help and version, one for a failed export, two for a command line that
  cannot be read. -/
  exit : Nat
  /-- What it prints. -/
  stdout : Text
  /-- The failure of the export, if it was one. -/
  failure : Option Failure := none

/-- The program run on a command line in the directory `current`. -/
def runProgram (programs : Programs) (current : Path) (words : List Text) (t : FileTree)
    (turns : List Nat := []) : Ending × Session :=
  match Arguments.ofWords words with
  | .error (.help full) => (⟨0, Usage.help full, none⟩, { tree := t })
  | .error .version => (⟨0, Usage.version, none⟩, { tree := t })
  | .error _ => (⟨2, [], none⟩, { tree := t })
  | .ok a =>
    match (Export.run programs current a turns).run.run { tree := t } with
    | (.ok summary, s) => (⟨0, summary.format a.output, none⟩, s)
    | (.error e, s) => (⟨1, [], some e⟩, s)

end InterfacePackage
