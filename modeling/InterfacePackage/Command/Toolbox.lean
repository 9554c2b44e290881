import InterfacePackage.Command.Programs

/-!
# Toolboxes

A machine whose programs are simple: a directory of tools, each of which always ends in the same
way, or only when it is called with a certain argument. Main statement: `isPassable_of_start` (a
call that starts a tool holds no zero character).
-/

namespace InterfacePackage

/-- A program that ends in a known way. -/
structure Tool where
  /-- The exit code; none when it is ended by a signal. -/
  code : Option Int := some 0
  /-- What it writes to standard error. -/
  stderr : Bytes := []
  /-- The argument without which it does nothing and succeeds. -/
  trigger : Option Text := none
  /-- The search for programs finds it. -/
  isExecutable : Bool := true
  /-- It can be started. -/
  starts : Bool := true
deriving DecidableEq, Repr

/-- A directory of tools by name. -/
structure Toolbox where
  directory : Path
  tools : List (Text × Tool)
deriving DecidableEq, Repr

namespace Toolbox

/-- The tool at a path. -/
def toolAt? (b : Toolbox) (program : Path) : Option (Text × Tool) :=
  b.tools.find? fun (name, _) => b.directory.join name = program

/-- What a tool comes to when it is called with arguments. -/
def outcome (tool : Tool) (arguments : List Text) : Output :=
  match tool.trigger with
  | some word =>
    if arguments.contains word then ⟨tool.code, [], Utf8.display tool.stderr⟩ else {}
  | none => ⟨tool.code, [], Utf8.display tool.stderr⟩

/-- How many bytes an argument may have. -/
def argumentLimit : Nat := 131071

/-- The tool that a call starts, with its name, or why it starts none. -/
def start (b : Toolbox) (i : Invocation) : Except RunFault (Text × Tool) :=
  let refuse (cause : Text) : Except RunFault (Text × Tool) :=
    .error (.notStarted i.program cause)
  if !i.isPassable then refuse "nul byte found in provided data"
  else
    match b.toolAt? i.program with
    | none => refuse Fault.notFound.message
    | some (name, tool) =>
      if i.arguments.any fun a => argumentLimit < (Utf8.encode a).length then
        refuse "Argument list too long (os error 7)"
      else if tool.starts then .ok (name, tool)
      else refuse Fault.notFound.message

/-- The programs of a machine that has just these tools. -/
def programs (b : Toolbox) : Programs where
  find? manager :=
    (b.tools.find? fun (name, tool) => name = manager.name && tool.isExecutable).map
      fun (name, _) => b.directory.join name
  execute _ i := (b.start i).map fun (_, tool) => outcome tool i.arguments

/-- A call that starts a tool holds no zero character. -/
theorem isPassable_of_start {b : Toolbox} {i : Invocation} {tool : Text × Tool}
    (h : b.start i = .ok tool) : i.isPassable = true := by
  cases hp : i.isPassable with
  | true => rfl
  | false => simp [start, hp] at h

end Toolbox

end InterfacePackage
