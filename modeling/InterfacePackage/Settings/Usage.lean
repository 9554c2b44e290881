import InterfacePackage.Settings.Arguments

/-!
# Help texts

The texts that `-h`, `--help` and `--version` print, made from one description of each option. The
full help gives every option room and lists the values that can be chosen from.
-/

namespace InterfacePackage.Usage

/-- The program's name. -/
def program : Text := "interfaces-exporter"

/-- The line that says what the program is for. -/
def purpose : Text := "Packages Solidity interfaces with relative imports, ABIs and typed bindings"

/-- An entry of the list of options. -/
structure Item where
  /-- The letter after a single dash. -/
  letter : Option Char := none
  /-- The name after two dashes. -/
  name : Text
  /-- What the value stands for, if there is one. -/
  value : Option Text := none
  /-- What the option does, in the short and in the full help. -/
  short : Text
  full : Text := short
  /-- The value without the option. -/
  standard : Option Text := none
  /-- The values to choose from, with what they do. -/
  choices : List (Text × Text) := []

/-- The description of an option. -/
def describe : Switch → Item
  | .workspace =>
    { name := "workspace", value := some "WORKSPACE", standard := some "."
      short := "Project root containing package.json and remappings" }
  | .config =>
    { name := "config", value := some "CONFIG"
      short := "Path to the exporter configuration (JSON)" }
  | .anchor =>
    { name := "anchor", value := some "ANCHOR"
      short := "Path segment that roots the interface tree" }
  | .exportDir =>
    { name := "export-dir", value := some "EXPORT_DIR"
      short := "Directory the package is exported to" }
  | .target =>
    { name := "target", value := some "TARGETS"
      short := "Binding targets to generate (repeatable, replaces configured targets)" }
  | .packageManager =>
    { name := "package-manager", value := some "PACKAGE_MANAGER"
      short := "Package manager used for codegen and install" }
  | .skipCodegen => { name := "skip-codegen", short := "Skip typed binding generation" }
  | .skipInstall =>
    { name := "skip-install", short := "Skip installing the exported package's dependencies" }
  | .output =>
    { name := "output", value := some "OUTPUT", standard := some "human"
      short := "Summary output format"
      choices := [("human", "Human-readable output (default)"), ("json", "JSON output")] }
  | .verbose => { letter := some 'v', name := "verbose", short := "Enable debug logging" }

/-- All entries of the list of options. -/
def items : List Item :=
  Switch.all.map describe ++
    [{ letter := some 'h', name := "help", short := "Print help (see more with '--help')"
       full := "Print help (see a summary with '-h')" },
     { letter := some 'V', name := "version", short := "Print version" }]

/-- The lines of a description stand this far in. -/
def margin : Text := List.replicate 10 ' '

namespace Item

/-- The line with the names of an option. -/
def heading (i : Item) : Text :=
  (match i.letter with
    | some c => "  -" ++ [c] ++ ", "
    | none => "      ")
  ++ "--" ++ i.name
  ++ (match i.value with
    | some v => " <" ++ v ++ ">"
    | none => [])

/-- The lines of an option in the short help. -/
def brief (i : Item) : List Text :=
  let standard := match i.standard with
    | some v => " [default: " ++ v ++ "]"
    | none => []
  let choices := match i.choices with
    | [] => []
    | cs => " [possible values: " ++ Text.join ", " (cs.map (·.1)) ++ "]"
  [i.heading, margin ++ i.short ++ standard ++ choices]

/-- The lines of the values to choose from, aligned after the longest name. -/
def choiceLines (cs : List (Text × Text)) : List Text :=
  let width := (cs.map (·.1.length)).foldl max 0
  cs.map fun (name, what) =>
    margin ++ "- " ++ name ++ ":" ++ List.replicate (width - name.length + 1) ' ' ++ what

/-- The lines of an option in the full help. -/
def detailed (i : Item) : List Text :=
  let choices := match i.choices with
    | [] => []
    | cs => [] :: (margin ++ "Possible values:") :: choiceLines cs
  let standard := match i.standard with
    | some v => [margin, margin ++ "[default: " ++ v ++ "]"]
    | none => []
  [i.heading, margin ++ i.full] ++ choices ++ standard

end Item

/-- The help text. -/
def help (full : Bool) : Text :=
  let top := [purpose, [], "Usage: " ++ program ++ " [OPTIONS]", [], "Options:"]
  let options :=
    if full then Text.join ['\n', '\n'] (items.map fun i => Text.join ['\n'] i.detailed)
    else Text.join ['\n'] (items.map fun i => Text.join ['\n'] i.brief)
  Text.join ['\n'] top ++ ['\n'] ++ options ++ ['\n']

/-- The version text. -/
def version : Text := program ++ " 0.1.0\n"

end InterfacePackage.Usage
