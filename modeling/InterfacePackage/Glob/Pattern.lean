import InterfacePackage.Text.Utf8

/-!
# Glob patterns

A pattern is read character by character into tokens. Braces hold alternatives, which may nest; the
tokens of the alternative being read form the current branch. What `**` means depends on what stands
around it in its branch.
-/

namespace InterfacePackage.Glob

/-- A part of a pattern. -/
inductive Token where
  /-- These bytes. -/
  | literal (bytes : Bytes)
  /-- `?`: any byte. -/
  | any
  /-- `*`: any bytes. -/
  | many
  /-- A leading `**`: nothing, or anything that ends in a slash. -/
  | leading
  /-- A trailing `**` with the slash before it: a slash and anything after it. -/
  | trailing
  /-- A `**` between slashes: a slash, or anything that starts and ends in one. -/
  | inner
  /-- A class: any byte that is, or is not, in one of the ranges. -/
  | oneOf (negated : Bool) (ranges : List (Char × Char))
  /-- Braces: any of the alternatives. -/
  | choice (branches : List (List Token))
deriving Repr

/-- Why a pattern cannot be read. -/
inductive Fault where
  | unclosedClass
  | invalidRange (first last : Char)
  | unopenedGroup
  | unclosedGroup
  | danglingEscape
deriving DecidableEq, Repr

/-- A fault of a pattern in words. -/
def Fault.message : Fault → Text
  | unclosedClass => "unclosed character class; missing ']'"
  | invalidRange first last => "invalid range; '" ++ [first] ++ "' > '" ++ [last] ++ "'"
  | unopenedGroup =>
    "unopened alternate group; missing '\x7b' (maybe escape '\x7d' with '[\x7d]'?)"
  | unclosedGroup =>
    "unclosed alternate group; missing '\x7d' (maybe escape '\x7b' with '[\x7b]'?)"
  | danglingEscape => "dangling '\\'"

/-- A group whose closing brace has not been read: the tokens before it and its finished
alternatives, both the last first. -/
structure Group where
  before : List Token
  finished : List (List Token)

/-- What has been read of a pattern. -/
structure Reading where
  /-- The tokens of the current branch, the last first. -/
  branch : List Token
  /-- The groups around it, the innermost first. -/
  groups : List Group

/-- What has been read of a class. -/
structure ClassReading where
  negated : Bool
  /-- Nothing but the negation has been read. -/
  first : Bool
  /-- A dash has been read that may make a range. -/
  dash : Bool
  /-- The ranges, the last first. -/
  ranges : List (Char × Char)

/-- What the next character belongs to. -/
inductive Mode where
  | plain
  /-- The opening bracket of a class has been read. -/
  | opening
  | inClass (c : ClassReading)

namespace Reading

/-- A token added to the current branch. -/
def push (r : Reading) (token : Token) : Reading := { r with branch := token :: r.branch }

/-- An opening brace. -/
def openGroup (r : Reading) : Reading := ⟨[], ⟨r.branch, []⟩ :: r.groups⟩

/-- A comma: the next alternative inside braces, itself elsewhere. -/
def comma (r : Reading) : Reading :=
  match r.groups with
  | [] => r.push (.literal (Utf8.encode [',']))
  | group :: outer =>
    ⟨[], { group with finished := r.branch.reverse :: group.finished } :: outer⟩

/-- A closing brace. -/
def closeGroup (r : Reading) : Except Fault Reading :=
  match r.groups with
  | [] => .error .unopenedGroup
  | group :: outer =>
    .ok ⟨.choice (r.branch.reverse :: group.finished) :: group.before, outer⟩

/-- Two stars after the character `previous` and before the rest of the pattern; whether the slash
after them belongs to them goes with the result. -/
def twoStars (r : Reading) (previous : Option Char) (rest : Text) : Reading × Bool :=
  let plain := (r.push .many).push .many
  let inside := !r.groups.isEmpty
  let next := rest.head?
  match r.branch with
  | [] => if next = none ∨ next = some '/' then (r.push .leading, next.isSome) else (plain, false)
  | last :: before =>
    let opens := previous = some '/' || (inside && (previous = some ',' || previous = some '\x7b'))
    let closes := next = none || (inside && (next = some ',' || next = some '\x7d'))
    if opens && (closes || next = some '/') then
      let token := match last with
        | .leading => .leading
        | .trailing => .trailing
        | _ => if closes then .trailing else .inner
      ({ r with branch := token :: before }, !closes)
    else (plain, false)

end Reading

namespace ClassReading

/-- The last range ended at a character instead. -/
def extend (c : ClassReading) (last : Char) : Except Fault ClassReading :=
  match c.ranges with
  | [] => .ok { c with first := false, dash := false }
  | (low, _) :: ranges =>
    if last < low then .error (.invalidRange low last)
    else .ok { c with first := false, dash := false, ranges := (low, last) :: ranges }

/-- A character of a class other than the bracket that closes it. A dash between two characters
makes a range; after a finished range it makes that range longer. -/
def character (c : ClassReading) (x : Char) : Except Fault ClassReading :=
  if c.dash then c.extend x
  else if x = '-' && !c.first then .ok { c with dash := true }
  else .ok { c with first := false, ranges := (x, x) :: c.ranges }

/-- The token of a class whose closing bracket has been read. A dash at its end is itself. -/
def token (c : ClassReading) : Token :=
  .oneOf c.negated ((if c.dash then ('-', '-') :: c.ranges else c.ranges).reverse)

end ClassReading

/-- The tokens of the rest of a pattern, after the character `previous`. -/
def scan : Mode → (previous : Option Char) → Reading → Text → Except Fault (List Token)
  | .plain, _, r, [] => if r.groups.isEmpty then .ok r.branch.reverse else .error .unclosedGroup
  | .plain, _, _, ['\\'] => .error .danglingEscape
  | .plain, _, r, '\\' :: c :: rest =>
    scan .plain (some c) (r.push (.literal (Utf8.encode [c]))) rest
  | .plain, previous, r, '*' :: '*' :: rest =>
    match r.twoStars previous rest, rest with
    | (r, true), _ :: rest => scan .plain (some '/') r rest
    | (r, _), rest => scan .plain (some '*') r rest
  | .plain, _, r, c :: rest =>
    match c with
    | '?' => scan .plain (some c) (r.push .any) rest
    | '*' => scan .plain (some c) (r.push .many) rest
    | '[' => scan .opening (some c) r rest
    | '\x7b' => scan .plain (some c) r.openGroup rest
    | '\x7d' => do scan .plain (some c) (← r.closeGroup) rest
    | ',' => scan .plain (some c) r.comma rest
    | _ => scan .plain (some c) (r.push (.literal (Utf8.encode [c]))) rest
  | _, _, _, [] => .error .unclosedClass
  | .opening, _, r, c :: rest =>
    if c = '!' ∨ c = '^' then scan (.inClass ⟨true, true, false, []⟩) (some c) r rest
    else do scan (.inClass (← ClassReading.character ⟨false, true, false, []⟩ c)) (some c) r rest
  | .inClass reading, _, r, c :: rest =>
    if c = ']' && !reading.first then scan .plain (some c) (r.push reading.token) rest
    else do scan (.inClass (← reading.character c)) (some c) r rest

/-- The tokens of a pattern. -/
def tokens (pattern : Text) : Except Fault (List Token) := scan .plain none ⟨[], []⟩ pattern

end InterfacePackage.Glob
