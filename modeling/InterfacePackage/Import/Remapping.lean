import InterfacePackage.Text.Blank

/-!
# Remappings

A remapping says which directory an alias in an import statement stands for. A table is a list of
them in order of precedence, written one to a line as `origin=destination`. `Table.render` is the
written form of a table.
-/

namespace InterfacePackage.Import

/-- An alias and the project path it stands for. -/
structure Remapping where
  /-- The alias as it occurs in import statements. -/
  origin : Text
  /-- The project path the alias stands for. -/
  destination : Text
deriving DecidableEq, Repr

/-- Remappings in order of precedence. -/
abbrev Table := List Remapping

/-- A line without `=`. It is kept, with an empty destination. -/
structure MissingDestination where
  line : Text
deriving DecidableEq, Repr

namespace MissingDestination

/-- The warning shown for a line without `=`. -/
def message (w : MissingDestination) : Text :=
  "remapping `" ++ w.line ++ "` has no `=`, using an empty destination"

end MissingDestination

namespace Remapping

/-- The remapping written in a trimmed line: its sides are those of the first `=`, trimmed; a line
without `=` is all origin. -/
def ofLine (line : Text) : Remapping :=
  match Text.cutAt ['='] line with
  | some (origin, destination) => ⟨origin.trim, destination.trim⟩
  | none => ⟨line, []⟩

/-- The line a remapping is written in. -/
def line (r : Remapping) : Text := r.origin ++ '=' :: r.destination

end Remapping

namespace Table

/-- The trimmed lines of a text that are not blank. -/
def lines (text : Text) : List Text :=
  ((Text.split '\n' text).map Text.trim).filter (· ≠ [])

/-- The remappings written in a text. -/
def ofText (text : Text) : Table := (lines text).map Remapping.ofLine

/-- The lines of a text that have no `=`. -/
def missingDestinations (text : Text) : List MissingDestination :=
  ((lines text).filter (! Text.contains · ['='])).map MissingDestination.mk

/-- A table written one remapping to a line. -/
def render (table : Table) : Text := table.flatMap fun r => r.line ++ ['\n']

/-- The first remapping whose origin occurs anywhere in the line. -/
def resolve (table : Table) (line : Text) : Option Remapping :=
  table.find? fun r => Text.contains line r.origin

end Table

end InterfacePackage.Import
