import InterfacePackage.Command.PackageManager

/-!
# Command lines

What a command line may hold and how it is read: word by word from the left, the first problem wins.
An option's value may be attached with `=` or be the next word. In the latter case it is only looked
at once the next known option or the end of the line is reached.
-/

namespace InterfacePackage

/-- How the summary of an export is written. -/
inductive OutputFormat where
  /-- For people. -/
  | human
  /-- As JSON. -/
  | json
deriving DecidableEq, Repr

/-- What a command line asks for. -/
structure Arguments where
  /-- The root of the project. -/
  workspace : Path := "."
  /-- The configuration file. -/
  config : Option Path := none
  /-- The path segment that roots the source tree. -/
  anchor : Option Text := none
  /-- The directory the package is exported to. -/
  exportDir : Option Path := none
  /-- The targets that bindings are generated for, in order. -/
  targets : List Text := []
  packageManager : Option PackageManager := none
  skipCodegen : Bool := false
  skipInstall : Bool := false
  output : OutputFormat := .human
  verbose : Bool := false
deriving DecidableEq, Repr

/-- The options of the program, help and version apart. -/
inductive Switch where
  | workspace
  | config
  | anchor
  | exportDir
  | target
  | packageManager
  | skipCodegen
  | skipInstall
  | output
  | verbose
deriving DecidableEq, Repr

namespace Switch

/-- All options in the order in which help lists them. -/
def all : List Switch :=
  [workspace, config, anchor, exportDir, target, packageManager, skipCodegen, skipInstall, output,
    verbose]

/-- The name of an option, which follows two dashes. -/
def name : Switch → Text
  | workspace => "workspace"
  | config => "config"
  | anchor => "anchor"
  | exportDir => "export-dir"
  | target => "target"
  | packageManager => "package-manager"
  | skipCodegen => "skip-codegen"
  | skipInstall => "skip-install"
  | output => "output"
  | verbose => "verbose"

/-- Whether an option takes a value. -/
def takesValue : Switch → Bool
  | skipCodegen | skipInstall | verbose => false
  | _ => true

/-- Whether an option may be given more than once. -/
def repeats : Switch → Bool
  | target => true
  | _ => false

/-- The option of a name. -/
def ofName? (t : Text) : Option Switch := all.find? (·.name = t)

end Switch

/-- Why a command line is not acted on. -/
inductive UsageFault where
  /-- An unknown option, or a word that belongs to none. -/
  | unknownArgument
  /-- A value is missing or not among those possible. -/
  | invalidValue
  /-- The value is no package manager's name. -/
  | valueValidation
  /-- An option is given twice. -/
  | argumentConflict
  /-- A value is attached to an option that takes none. -/
  | tooManyValues
  /-- Help is asked for, in full or in short. -/
  | help (full : Bool)
  /-- The version is asked for. -/
  | version
deriving DecidableEq, Repr

namespace Arguments

/-- Arguments with an option set, to the value `v` if it takes one. -/
def set (a : Arguments) (o : Switch) (v : Text) : Except UsageFault Arguments :=
  match o with
  | .workspace => .ok { a with workspace := v }
  | .config => .ok { a with config := some v }
  | .anchor => .ok { a with anchor := some v }
  | .exportDir => .ok { a with exportDir := some v }
  | .target => .ok { a with targets := a.targets ++ [v] }
  | .packageManager =>
    match PackageManager.ofName? v with
    | some manager => .ok { a with packageManager := some manager }
    | none => .error .valueValidation
  | .skipCodegen => .ok { a with skipCodegen := true }
  | .skipInstall => .ok { a with skipInstall := true }
  | .output =>
    if v = "human" then .ok { a with output := .human }
    else if v = "json" then .ok { a with output := .json }
    else .error .invalidValue
  | .verbose => .ok { a with verbose := true }

/-- A command line read in part. -/
structure Scan where
  /-- What it asks for so far. -/
  arguments : Arguments := {}
  /-- The options settled so far. -/
  given : List Switch := []
  /-- The option read last, if it takes a value that was not attached, and its value if that has
  come. -/
  pending : Option (Switch × Option Text) := none
  /-- A `--` has been read. -/
  closed : Bool := false

namespace Scan

/-- An option with its value, or with none if it takes none, taken into account. -/
def take (s : Scan) (o : Switch) (v : Text) : Except UsageFault Scan := do
  if s.given.contains o && !o.repeats then throw .argumentConflict
  return { s with arguments := ← s.arguments.set o v, given := o :: s.given, pending := none }

/-- The option read last looked at. -/
def settle (s : Scan) : Except UsageFault Scan :=
  match s.pending with
  | none => .ok s
  | some (_, none) => .error .invalidValue
  | some (o, some v) => s.take o v

/-- A word after two dashes, cut at its first `=`. -/
def long (s : Scan) (name : Text) (attached : Option Text) : Except UsageFault Scan :=
  match Switch.ofName? name with
  | some o =>
    match o.takesValue, attached with
    | true, some v => do (← s.settle).take o v
    | true, none => do return { ← s.settle with pending := some (o, none) }
    | false, some _ => .error .tooManyValues
    | false, none => do (← s.settle).take o []
  | none =>
    if name = "help" ∨ name = "version" then
      if attached.isSome then .error .tooManyValues
      else do
        discard s.settle
        throw (if name = "help" then .help true else .version)
    else .error .unknownArgument

/-- The letters after a single dash. -/
def short (s : Scan) : Text → Except UsageFault Scan
  | [] => .ok s
  | 'v' :: rest => do short (← (← s.settle).take .verbose []) rest
  | 'h' :: _ => do
    discard s.settle
    throw (.help false)
  | 'V' :: _ => do
    discard s.settle
    throw .version
  | _ => .error .unknownArgument

/-- A word that is no option: the value of the option before it if that lacks one. -/
def value (s : Scan) (word : Text) : Except UsageFault Scan :=
  match s.pending with
  | some (o, none) => .ok { s with pending := some (o, some word) }
  | _ => .error .unknownArgument

/-- One more word. -/
def word (s : Scan) (w : Text) : Except UsageFault Scan :=
  if s.closed then .error .unknownArgument
  else match w with
    | ['-', '-'] => .ok { s with closed := true }
    | '-' :: '-' :: body =>
      match Text.cutAt ['='] body with
      | some (name, v) => s.long name (some v)
      | none => s.long body none
    | '-' :: c :: rest => s.short (c :: rest)
    | _ => s.value w

end Scan

/-- What a command line, without the program's name, asks for. -/
def ofWords (words : List Text) : Except UsageFault Arguments := do
  let s ← words.foldlM Scan.word {}
  return (← s.settle).arguments

end Arguments

end InterfacePackage
