import InterfacePackage.Json.Reader

/-!
# JSON values

Values of any kind, how they are laid out over lines, and a reader that takes whatever comes.
-/

namespace InterfacePackage

/-- A JSON value. Objects keep their members in order, repeated keys included. -/
inductive Json where
  | null
  | boolean (b : Bool)
  | number (n : Json.Numeral)
  | string (t : Text)
  | list (items : List Json)
  | object (members : List (Text × Json))
deriving Repr

namespace Json

/-! ## Layout -/

/-- A new line at a depth of nesting. -/
def newline (indent : Text) (depth : Nat) : Text :=
  '\n' :: (List.replicate depth indent).flatten

/-- Parts between brackets, each on a line of its own, the closing bracket at the depth outside. -/
def enclose (opening closing : Char) (indent : Text) (depth : Nat) (parts : List Text) : Text :=
  if parts = [] then [opening, closing]
  else opening :: (Text.join [','] (parts.map (newline indent (depth + 1) ++ ·))
    ++ newline indent depth ++ [closing])

mutual

/-- A value at a depth of nesting. -/
def layout (indent : Text) (depth : Nat) : Json → Text
  | null => "null"
  | boolean true => "true"
  | boolean false => "false"
  | number n => n.text
  | string t => Quoted.write t
  | list items => enclose '[' ']' indent depth (layoutItems indent (depth + 1) items)
  | object members => enclose '\x7b' '\x7d' indent depth (layoutMembers indent (depth + 1) members)

/-- The items of a list at a depth of nesting. -/
def layoutItems (indent : Text) (depth : Nat) : List Json → List Text
  | [] => []
  | x :: rest => layout indent depth x :: layoutItems indent depth rest

/-- The members of an object at a depth of nesting. -/
def layoutMembers (indent : Text) (depth : Nat) : List (Text × Json) → List Text
  | [] => []
  | (k, x) :: rest =>
    (Quoted.write k ++ ": " ++ layout indent depth x) :: layoutMembers indent depth rest

end

/-- A document, `width` blanks deeper with each depth of nesting, and a line feed at its end. -/
def document (width : Nat) (x : Json) : Text := layout (List.replicate width ' ') 0 x ++ ['\n']

/-! ## Reading -/

namespace Reader

/-- A value of any kind, nested no deeper than `fuel`. -/
def value : (fuel : Nat) → Reader Json
  | 0 => throw (.ended .value)
  | fuel + 1 => do
    match ← peek with
    | none => throw (.ended .value)
    | some 'n' => advance; identifier "ull"; return .null
    | some 't' => advance; identifier "rue"; return .boolean true
    | some 'f' => advance; identifier "alse"; return .boolean false
    | some '"' => advance; return .string (← Quoted.read)
    | some '[' => advance; return .list (← items (value fuel))
    | some '\x7b' =>
      advance
      let keep (acc : List (Text × Json)) (key : Text) : Reader (List (Text × Json)) := do
        colon
        return (key, ← value fuel) :: acc
      return .object (← members keep []).reverse
    | some c =>
      if c = '-' || c.isDigit then
        let n ← Numeral.read (.ended .value)
        return .number n
      else throw .expectedValue

end Reader

/-- The value written in a text. -/
def parse (t : Text) : Except Problem Json := Reader.document (Reader.value (t.length + 1)) t

/-- The value of the first member with a key. -/
def get? (x : Json) (key : Text) : Option Json :=
  match x with
  | object members => (members.find? (·.1 = key)).map (·.2)
  | _ => none

end Json

end InterfacePackage
