import InterfacePackage.Import.Relocation
import InterfacePackage.Import.Statement

/-!
# Sources

Every import statement of a source is relocated line by line. Lines end at a line feed and keep
everything else, carriage returns included.
-/

namespace InterfacePackage.Import

/-- What relocation needs to know about a project. -/
structure Layout where
  /-- The path segment that roots the source tree. -/
  anchor : Text := "solidity"
  /-- The text that marks a directory of installed packages. -/
  modulesMarker : Text := "node_modules/"
deriving DecidableEq, Repr

/-- A relocated source. -/
structure Relocated where
  /-- The new contents. -/
  text : Text
  /-- How many lines there are. -/
  lineCount : Nat
  /-- How many of them changed. -/
  rewrittenLines : Nat
deriving DecidableEq, Repr

/-- A line of `file` relocated: an import statement in which some origin of the table occurs has
that alias replaced and is then collapsed; any other line is left alone. -/
def relocateLine (line : Text) (file : Path) (table : Table) (layout : Layout) : Text :=
  if isStatement line then
    match table.resolve line with
    | some r => collapse (relocate line file r layout.anchor) layout.modulesMarker
    | none => line
  else line

/-- The contents of `file` relocated line by line. -/
def relocateSource (source : Text) (file : Path) (table : Table) (layout : Layout) : Relocated :=
  let before := Text.split '\n' source
  let after := before.map (relocateLine · file table layout)
  { text := Text.join ['\n'] after
    lineCount := before.length
    rewrittenLines := ((before.zip after).filter fun (old, new) => new ≠ old).length }

/-- The name of the interface that a file defines: its name without the extension. -/
def interfaceName (file : Path) : Option Text := file.fileStem

end InterfacePackage.Import
