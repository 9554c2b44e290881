import InterfacePackage.Path.Basic

/-!
# Invocations

A call of a program, and what comes of it.
-/

namespace InterfacePackage

/-- A call of a program. Arguments are passed as they are. -/
structure Invocation where
  /-- The name or path of the program. -/
  program : Text
  arguments : List Text
  /-- The working directory. -/
  directory : Path
deriving DecidableEq, Repr

namespace Invocation

/-- An invocation as it is shown: the program and its arguments with blanks between them. -/
def display (i : Invocation) : Text := i.program ++ i.arguments.flatMap fun a => ' ' :: a

/-- Whether a program can be handed a call. A zero ends each text that is handed over, so no text
may hold one. -/
def isPassable (i : Invocation) : Bool :=
  (i.program :: i.directory :: i.arguments).all fun t => '\x00' ∉ t

end Invocation

/-- What a program that has ended leaves. -/
structure Output where
  /-- The exit code; none when a signal ended the program. -/
  code : Option Int := some 0
  stdout : Text := []
  stderr : Text := []
deriving DecidableEq, Repr

namespace Output

/-- Whether the program ended with code zero. -/
def isSuccess (o : Output) : Bool := o.code = some 0

end Output

end InterfacePackage
