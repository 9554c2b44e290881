import InterfacePackage.Command.Invocation
import InterfacePackage.Command.PackageManager

/-!
# Running programs

Bindings are generated and dependencies installed by calls of a package manager. What a call comes
to is up to an executor, which may take all calls made before into account; a runner makes one call
for each request and judges the answer.
-/

namespace InterfacePackage

/-- Why a request to a package manager fails. -/
inductive RunFault where
  /-- The program could not be started. -/
  | notStarted (program cause : Text)
  /-- The program ended, and not with code zero. -/
  | failed (command : Text) (code : Int) (stderr : Text)
  /-- The program of the package manager is not there. -/
  | notInstalled (manager : PackageManager)
deriving DecidableEq, Repr

/-- A fault of a request in words. -/
def RunFault.message : RunFault → Text
  | notStarted program cause => "failed to spawn " ++ program ++ ": " ++ cause
  | failed command code stderr =>
    "`" ++ command ++ "` exited with code " ++ Text.ofInt code ++ ": " ++ stderr
  | notInstalled manager => "package manager not found: " ++ manager.name

/-- What a call comes to, given the calls before it: an output, or the fault that kept the program
from starting. -/
abbrev Executor := List Invocation → Invocation → Except RunFault Output

/-- A package manager at work on a project. -/
structure Runner where
  manager : PackageManager
  /-- The program that is called. -/
  program : Text
  /-- The directory that relative paths of requests start from. -/
  root : Path
deriving DecidableEq, Repr

/-- What is asked of a runner. -/
inductive Request where
  /-- Bindings for a target from the files that a pattern matches. -/
  | generate (target : Text) (outDir : Path) (pattern : Text)
  /-- The dependencies of the package in a directory. -/
  | install (directory : Path)
deriving DecidableEq, Repr

/-- The program that generates bindings. -/
def bindingProgram : Text := "typechain"

namespace Runner

/-- The call that a request makes. The pattern is passed on as it is. -/
def invocation (r : Runner) : Request → Invocation
  | .generate target outDir pattern =>
    { program := r.program
      arguments := r.manager.execArguments bindingProgram
        ["--target", target, "--out-dir", outDir, pattern]
      directory := r.root }
  | .install directory =>
    { program := r.program
      arguments := r.manager.installArguments
      directory := r.root.join directory }

/-- An executor's answer judged: anything but code zero is a failure. -/
def judge (i : Invocation) : Except RunFault Output → Except RunFault Output
  | .ok output =>
    if output.isSuccess then .ok output
    else .error (.failed i.display (output.code.getD (-1)) output.stderr)
  | .error e => .error e

/-- A request made after the calls of `before`. -/
def request (r : Runner) (execute : Executor) (before : List Invocation) (q : Request) :
    Except RunFault Output :=
  judge (r.invocation q) (execute before (r.invocation q))

/-- Requests made one after another, also after a failure: the calls and their outcomes. -/
def requests (r : Runner) (execute : Executor) :
    (before : List Invocation) → List Request → List (Invocation × Except RunFault Output)
  | _, [] => []
  | before, q :: rest =>
    (r.invocation q, r.request execute before q)
      :: requests r execute (before ++ [r.invocation q]) rest

end Runner

end InterfacePackage
