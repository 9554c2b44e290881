import InterfacePackage.Command.Runner

/-!
# Programs

The programs of a machine, as far as an export needs to know them.
-/

namespace InterfacePackage

/-- The programs of a machine. -/
structure Programs where
  /-- Where the program of a package manager is found. -/
  find? : PackageManager → Option Path
  /-- What a call comes to. -/
  execute : Executor

end InterfacePackage
