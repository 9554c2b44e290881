import InterfacePackage.Json.Reader

/-!
# Values passed over

A value that nobody wants is read for its grammar alone, however deep it is nested. The brackets
that are open are kept in a list, the innermost first.
-/

namespace InterfacePackage.Json.Skip

/-- An open bracket. -/
inductive Bracket where
  | list
  | object
deriving DecidableEq, Repr

/-- A text after a literal name. -/
def identifier (name : Text) (t : Text) : Except Problem Text :=
  (Reader.identifier name t).map (·.2)

mutual

/-- A value is due. -/
def value : (fuel : Nat) → List Bracket → Text → Except Problem Text
  | 0, _, _ => .error (.ended .value)
  | fuel + 1, brackets, t =>
    match dropBlanks t with
    | [] => .error (.ended .value)
    | '[' :: rest =>
      match dropBlanks rest with
      | [] => .error (.ended .list)
      | ']' :: rest => close fuel brackets rest
      | rest => value fuel (.list :: brackets) rest
    | '\x7b' :: rest =>
      match dropBlanks rest with
      | '\x7d' :: rest => close fuel brackets rest
      | rest => key fuel (.object :: brackets) rest
    | '"' :: rest => do close fuel brackets (← Quoted.skip rest)
    | 'n' :: rest => do close fuel brackets (← identifier "ull" rest)
    | 't' :: rest => do close fuel brackets (← identifier "rue" rest)
    | 'f' :: rest => do close fuel brackets (← identifier "alse" rest)
    | c :: rest =>
      if c = '-' || c.isDigit then do
        close fuel brackets (← Numeral.read .invalidNumber (c :: rest)).2
      else .error .expectedValue

/-- A value has ended. -/
def close : (fuel : Nat) → List Bracket → Text → Except Problem Text
  | _, [], t => .ok t
  | 0, _, _ => .error (.ended .value)
  | fuel + 1, bracket :: outer, t =>
    match bracket, dropBlanks t with
    | .list, [] => .error (.ended .list)
    | .object, [] => .error (.ended .object)
    | .list, ',' :: rest => value fuel (.list :: outer) rest
    | .object, ',' :: rest => key fuel (.object :: outer) rest
    | .list, ']' :: rest => close fuel outer rest
    | .object, '\x7d' :: rest => close fuel outer rest
    | .list, _ => .error .expectedCommaOrBracket
    | .object, _ => .error .expectedCommaOrBrace

/-- A key is due. -/
def key : (fuel : Nat) → List Bracket → Text → Except Problem Text
  | 0, _, _ => .error (.ended .value)
  | fuel + 1, brackets, t =>
    match dropBlanks t with
    | [] => .error (.ended .object)
    | '"' :: rest => do
      match dropBlanks (← Quoted.skip rest) with
      | ':' :: rest => value fuel brackets rest
      | [] => .error (.ended .object)
      | _ => .error .expectedColon
    | _ => .error .keyNotString

end

end InterfacePackage.Json.Skip

namespace InterfacePackage.Json.Reader

/-- Any value, passed over. -/
def skip : Reader Unit := fun t =>
  (Skip.value (2 * t.length + 1) [] t).map fun rest => ((), rest)

end InterfacePackage.Json.Reader
