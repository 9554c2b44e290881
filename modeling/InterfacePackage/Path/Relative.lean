import InterfacePackage.Path.Normal

/-!
# Relative paths

The way from one directory to a path, found from the two spellings alone.
-/

namespace InterfacePackage.Path

/-- Whether a list of components starts at the root. -/
def startsAtRoot (cs : List Component) : Bool := cs.head? = some .root

/-- The way from `base` to `target` once shared leading components are dropped. Where `base` itself
climbs at the first difference, no way can be read off the two paths. Both are in normal form. -/
def descent : List Component → List Component → Option (List Component)
  | target, [] => some target
  | [], base => some (base.map fun _ => .up)
  | t :: target, b :: base =>
    if t = b then descent target base
    else if b = .up then none
    else some (.up :: (base.map fun _ => .up) ++ t :: target)

/-- The way from `base` to `target`. An absolute target needs no base, and a relative one is out of
reach of an absolute base. -/
def difference (target base : List Component) : Option (List Component) :=
  if startsAtRoot target = startsAtRoot base then descent target base
  else if startsAtRoot target then some target
  else none

/-- The way from the directory `base` to `target`, both normalised first. Where there is none the
normalised target stands in. -/
def relativeTo (target base : Path) : List Component :=
  let target := normalize target.components
  let base := normalize base.components
  (difference target base).getD target

end InterfacePackage.Path
