import InterfacePackage.Path.Basic

/-!
# Normal forms of paths

Two ways to resolve `.` and `..` in a list of components without looking at a file tree. `normalize`
keeps the `..` components that climb out of a relative path; `confine` climbs no higher than where
the path starts. On absolute paths both agree.
-/

namespace InterfacePackage.Path

/-- One component met with the components kept so far, the last one first. -/
def normalStep (kept : List Component) : Component → List Component
  | .here => kept
  | .up => match kept with
    | .name _ :: above => above
    | .root :: _ => kept
    | _ => .up :: kept
  | c => c :: kept

/-- Components without `.`, and with `..` only at the start of a relative path. -/
def normalize (cs : List Component) : List Component :=
  (cs.foldl normalStep []).reverse

/-- As `normalStep`, but a `..` with nothing above it is dropped. -/
def confineStep (kept : List Component) : Component → List Component
  | .here => kept
  | .up => match kept with
    | .name _ :: above => above
    | _ => kept
  | c => c :: kept

/-- Components without `.` and `..`, where `..` at the start is dropped. -/
def confine (cs : List Component) : List Component :=
  (cs.foldl confineStep []).reverse

end InterfacePackage.Path
