import InterfacePackage.Import.Remapping
import InterfacePackage.Path.Relative

/-!
# Relocation of import paths

An alias is replaced by the way from the importing file's directory to what the alias stands for, so
that the import keeps its meaning when the whole tree is moved. A reference through a directory of
installed packages is cut down to the package's own path.
-/

namespace InterfacePackage.Import

/-- The path an alias stands for, as seen from the root of `file`: the part of `file` from the first
occurrence of `anchor` on replaced by `destination`. Without the anchor it is `file` itself. -/
def candidate (file : Path) (destination anchor : Text) : Path :=
  match Text.cutAt anchor file with
  | some (before, _) => before ++ destination
  | none => file

/-- The directory of a file: its path before the last slash, empty when there is none. -/
def directory (file : Path) : Path := (Text.beforeLast '/' file).getD []

/-- The fragment that replaces an alias in a file: the way from the file's directory to the
candidate with a slash at its end, and `./` for the directory itself. -/
def relativePrefix (file : Path) (destination anchor : Text) : Text :=
  match Path.render (Path.relativeTo (candidate file destination anchor) (directory file)) with
  | [] => "./"
  | way => way ++ ['/']

/-- A line with the first occurrence of the alias replaced by its fragment. -/
def relocate (line : Text) (file : Path) (r : Remapping) (anchor : Text) : Text :=
  line.replaceFirst r.origin (relativePrefix file r.destination anchor)

/-- The text up to and including its first dot; empty when it has none. -/
def uptoDot (line : Text) : Text :=
  match Text.cutAt ['.'] line with
  | some (before, _) => before ++ ['.']
  | none => []

/-- A line through a directory of installed packages: all between its first dot and the end of the
first `marker` is left out. Lines without the marker stay as they are. -/
def collapse (line marker : Text) : Text :=
  match Text.cutAt marker line with
  | some (_, after) => uptoDot line ++ after
  | none => line

end InterfacePackage.Import
