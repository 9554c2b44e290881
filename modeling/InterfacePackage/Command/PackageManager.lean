import InterfacePackage.FileTree.Resolve

/-!
# Package managers

The package managers a project may use, how each is called, and how the one in use is told from the
lock files around a directory.
-/

namespace InterfacePackage

/-- A package manager. -/
inductive PackageManager where
  | npm
  | pnpm
  | yarn
  | bun
deriving DecidableEq, Repr

namespace PackageManager

/-- The name of a package manager, which is that of its program. -/
def name : PackageManager → Text
  | npm => "npm"
  | pnpm => "pnpm"
  | yarn => "yarn"
  | bun => "bun"

/-- All package managers with their names. -/
def all : List (Text × PackageManager) :=
  [npm, pnpm, yarn, bun].map fun manager => (manager.name, manager)

/-- The package manager of a name in any mixture of ASCII cases. -/
def ofName? (t : Text) : Option PackageManager :=
  (all.find? (·.1 = t.map Char.toLower)).map (·.2)

/-- What is said about a name that is none of theirs. -/
def unknownMessage (t : Text) : Text :=
  "unknown package manager: " ++ t ++ " (expected npm, pnpm, yarn or bun)"

/-- The arguments that install what a package depends on. -/
def installArguments (_ : PackageManager) : List Text := ["install"]

/-- The arguments that stand before a program of the local dependencies. -/
def runArguments : PackageManager → List Text
  | npm => ["exec", "--"]
  | pnpm => ["exec"]
  | yarn => []
  | bun => ["run"]

/-- The arguments that run a program of the local dependencies. -/
def execArguments (manager : PackageManager) (program : Text) (arguments : List Text) :
    List Text :=
  manager.runArguments ++ program :: arguments

/-- The lock files, each with its package manager, the one that counts most first. -/
def lockFiles : List (Text × PackageManager) :=
  [("pnpm-lock.yaml", pnpm), ("bun.lockb", bun), ("bun.lock", bun), ("yarn.lock", yarn),
    ("package-lock.json", npm)]

/-- The package manager whose lock file stands in a directory. -/
def lockedIn (t : FileTree) (directory : Path) : Option PackageManager :=
  (lockFiles.find? fun (file, _) => t.exists? (directory.join file)).map (·.2)

/-- The package manager whose lock file stands in a directory or the nearest one above it. -/
def detect (t : FileTree) (directory : Path) : Option PackageManager :=
  directory.ancestors.findSome? (lockedIn t)

/-- The order in which programs are looked for when no lock file tells. -/
def preference : List PackageManager := [yarn, npm, pnpm, bun]

end PackageManager

end InterfacePackage
