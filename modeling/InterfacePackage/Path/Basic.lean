import InterfacePackage.Text.Basic

/-!
# Paths

A path is kept as it was written, since messages show it so. What it means is its list of
components: repeated and trailing slashes vanish, and so does every `.` except one that opens a
relative path.
-/

namespace InterfacePackage

/-- A path as written. -/
abbrev Path := Text

/-- One step of a path. -/
inductive Component where
  /-- The leading slash of an absolute path. -/
  | root
  /-- The `.` that opens a relative path. -/
  | here
  /-- A `..`. -/
  | up
  /-- A name. -/
  | name (n : Text)
deriving DecidableEq, Repr

namespace Component

/-- A component as written. -/
def text : Component → Text
  | root => ['/']
  | here => ['.']
  | up => ['.', '.']
  | name n => n

/-- The order among different kinds of components. -/
def rank : Component → Nat
  | root => 0
  | here => 1
  | up => 2
  | name _ => 3

/-- Components are ordered by kind, and names among each other by their characters. -/
def compare : Component → Component → Ordering
  | name a, name b => Ord.compare a b
  | a, b => Ord.compare a.rank b.rank

/-- The component that a piece between slashes stands for. An empty piece and `.` stand for none. -/
def ofPiece? : Text → Option Component
  | [] => none
  | ['.'] => none
  | ['.', '.'] => some up
  | piece => some (name piece)

end Component

namespace Path

/-- Whether a path starts at the root. -/
def isAbsolute : Path → Bool
  | '/' :: _ => true
  | _ => false

/-- The components of a path. -/
def components (p : Path) : List Component :=
  let pieces := Text.split '/' p
  if p.isAbsolute then .root :: pieces.filterMap Component.ofPiece?
  else match pieces with
    | ['.'] :: rest => .here :: rest.filterMap Component.ofPiece?
    | _ => pieces.filterMap Component.ofPiece?

/-- Components written with one slash between neighbours; the root is itself a slash and takes no
other after it. -/
def render : List Component → Path
  | .root :: rest => '/' :: Text.join ['/'] (rest.map Component.text)
  | cs => Text.join ['/'] (cs.map Component.text)

/-- `b` seen from `a`: `b` itself when it is absolute, else both with a slash between them, unless
`a` is empty or already ends in one. -/
def join (a b : Path) : Path :=
  if b.isAbsolute then b
  else if a = [] ∨ a.getLast? = some '/' then a ++ b
  else a ++ '/' :: b

/-- The name a path ends in; none when it ends in `..`, is the root, or has no components. -/
def fileName (p : Path) : Option Text :=
  match p.components.getLast? with
  | some (.name n) => some n
  | _ => none

/-- A file name without the part from its last dot, unless that dot is its first character. -/
def stemOf (name : Text) : Text :=
  match name.reverse.dropWhile (· ≠ '.') with
  | [] => name
  | [_] => name
  | _ :: before => before.reverse

/-- The name a path ends in, without its extension. -/
def fileStem (p : Path) : Option Text := p.fileName.map stemOf

/-! ## Parents -/

/-- Whether a piece between slashes has no part in the meaning of a path. -/
def isIdle (piece : Text) : Bool := piece = [] ∨ piece = ['.']

/-- The path above, as far as it is written: the text up to the last component, without the slashes
and dots that end it. The root and the empty path have none. -/
def parent (p : Path) : Option Path :=
  match p with
  | [] => none
  | '/' :: body =>
    match (Text.split '/' body).reverse.dropWhile isIdle with
    | [] => none
    | _ :: above => some ('/' :: Text.join ['/'] (above.dropWhile isIdle).reverse)
  | _ =>
    match Text.split '/' p with
    | [] => none
    | first :: rest =>
      match rest.reverse.dropWhile isIdle with
      | [] => some []
      | _ :: above => some (Text.join ['/'] (first :: (above.dropWhile isIdle).reverse))

/-- The path and everything above it, from the path itself upward. -/
def ancestors (p : Path) : List Path :=
  go p.length p
where
  /-- At most as many paths above as there are characters. -/
  go : Nat → Path → List Path
    | 0, p => [p]
    | n + 1, p => p :: match p.parent with
      | some above => go n above
      | none => []

/-! ## Component-wise comparison -/

/-- Whether `base` is the start of `p`, component by component. -/
def startsWith (p base : Path) : Bool := base.components.isPrefixOf p.components

/-- What remains of `p` below `base`; nothing when `base` is not the start of `p`. -/
def stripPrefix (p base : Path) : Option Path :=
  if p.startsWith base then some (render (p.components.drop base.components.length)) else none

/-- Lists of components compare at their first difference. -/
def compareComponents : List Component → List Component → Ordering
  | [], [] => .eq
  | [], _ :: _ => .lt
  | _ :: _, [] => .gt
  | a :: as, b :: bs => (a.compare b).then (compareComponents as bs)

/-- Paths compare by component, so that `a/b` comes before `a-b`. -/
def compare (p q : Path) : Ordering := compareComponents p.components q.components

end Path

end InterfacePackage
