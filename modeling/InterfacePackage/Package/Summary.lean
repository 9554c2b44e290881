import InterfacePackage.Json.Value
import InterfacePackage.Settings.Arguments

/-!
# Summaries

What an export reports when it has succeeded, for people and for programs.
-/

namespace InterfacePackage

/-- An interface that has been exported. -/
structure ExportedInterface where
  /-- Its name, which is that of its file without the extension. -/
  name : Text
  /-- The source file, relative to the workspace. -/
  source : Path
  /-- The relocated source in the package. -/
  contract : Path
  /-- The compiled interface in the package. -/
  abi : Path
  /-- How many lines of the source were rewritten. -/
  rewrittenImports : Nat
deriving DecidableEq, Repr

/-- What an export has done. -/
structure Summary where
  exportDir : Path
  interfaces : List ExportedInterface
  generatedTargets : List Text
  dependenciesInstalled : Bool
deriving DecidableEq, Repr

namespace ExportedInterface

/-- An exported interface as a JSON value. -/
def toJson (i : ExportedInterface) : Json :=
  .object
    [("name".toList, .string i.name), ("source".toList, .string i.source),
      ("contract".toList, .string i.contract), ("abi".toList, .string i.abi),
      ("rewritten_imports".toList, .number (.ofNat i.rewrittenImports))]

end ExportedInterface

namespace Summary

/-- How many lines were rewritten in all interfaces together. -/
def rewrittenImports (s : Summary) : Nat := s.interfaces.foldr (·.rewrittenImports + ·) 0

/-- A summary as a JSON value. -/
def toJson (s : Summary) : Json :=
  .object
    [("export_dir".toList, .string s.exportDir),
      ("interfaces".toList, .list (s.interfaces.map (·.toJson))),
      ("generated_targets".toList, .list (s.generatedTargets.map .string)),
      ("dependencies_installed".toList, .boolean s.dependenciesInstalled)]

/-- The line on the interfaces. -/
def interfacesLine (s : Summary) : Text :=
  "Exported " ++ Text.ofNat s.interfaces.length ++ " interfaces to " ++ s.exportDir ++ " ("
    ++ Text.ofNat s.rewrittenImports ++ " imports rewritten)\n"

/-- The line on the bindings. -/
def bindingsLine (s : Summary) : Text :=
  if s.generatedTargets = [] then []
  else "Bindings: " ++ Text.join ", " s.generatedTargets ++ "\n"

/-- The line on the dependencies. -/
def dependenciesLine (s : Summary) : Text :=
  if s.dependenciesInstalled then "Dependencies installed\n".toList else []

/-- A summary in sentences, one to a line; what was not done is left out. -/
def sentences (s : Summary) : Text := s.interfacesLine ++ s.bindingsLine ++ s.dependenciesLine

/-- A summary as it is printed. -/
def format (s : Summary) : OutputFormat → Text
  | .human => s.sentences
  | .json => s.toJson.document 2

end Summary

end InterfacePackage
