import InterfacePackage.Json.Number
import InterfacePackage.Json.Quoted

/-!
# Readers

A reader takes a value of the kind it wants from the start of a text, or stops at the first problem
in the order of the text. Readers of lists and objects take readers of what they hold; `document`
makes a reader of a whole text.
-/

namespace InterfacePackage.Json

/-- Takes something from the start of a text. -/
abbrev Reader := StateT Text (Except Problem)

/-- The white space between tokens. -/
def isBlank (c : Char) : Bool := c = ' ' || c = '\t' || c = '\n' || c = '\r'

/-- A text from its first token on. -/
def dropBlanks (t : Text) : Text := t.dropWhile isBlank

namespace Reader

/-- The first character of the next token, left where it is. -/
def peek : Reader (Option Char) := fun t =>
  let t := dropBlanks t
  .ok (t.head?, t)

/-- The character just peeked at taken away. -/
def advance : Reader Unit := fun t => .ok ((), t.drop 1)

/-- The rest of a literal name. -/
def identifier : Text → Reader Unit
  | [] => pure ()
  | expected :: more => fun t =>
    match t with
    | [] => .error (.ended .value)
    | c :: rest => if c = expected then identifier more rest else .error .expectedIdentifier

/-- The problem of finding the next value where `wanted` should be. A scalar is read to its end
first, and what is wrong with it comes before its being of the wrong kind. -/
def mismatch {α : Type} (wanted : Text) : Reader α := do
  let found : Found ← match ← peek with
    | none => throw (.ended .value)
    | some 'n' => advance; identifier "ull"; pure .null
    | some 't' => advance; identifier "rue"; pure (.boolean true)
    | some 'f' => advance; identifier "alse"; pure (.boolean false)
    | some '"' => advance; pure (.string (← Quoted.read))
    | some '[' => pure .sequence
    | some '\x7b' => pure .map
    | some c =>
      if c = '-' || c.isDigit then
        let n ← Numeral.read (.ended .value)
        liftM n.found
      else throw .expectedValue
  throw (.wrongKind found wanted)

/-- A string, which the messages call `wanted`. -/
def string (wanted : Text) : Reader Text := do
  match ← peek with
  | some '"' => advance; Quoted.read
  | _ => mismatch wanted

/-- A value or `null`. -/
def optional {α : Type} (value : Reader α) : Reader (Option α) := do
  match ← peek with
  | some 'n' => advance; identifier "ull"; return none
  | _ => return some (← value)

/-- The colon after a key. -/
def colon : Reader Unit := do
  match ← peek with
  | some ':' => advance
  | some _ => throw .expectedColon
  | none => throw (.ended .object)

/-! ## Lists -/

/-- Items up to the closing bracket, the first of which is due. -/
def itemsFrom {α : Type} (item : Reader α) : (fuel : Nat) → Reader (List α)
  | 0 => throw (.ended .list)
  | fuel + 1 => do
    let x ← item
    match ← peek with
    | some ']' => advance; return [x]
    | some ',' =>
      advance
      match ← peek with
      | some ']' => throw .trailingComma
      | some _ => return x :: (← itemsFrom item fuel)
      | none => throw (.ended .value)
    | some _ => throw .expectedCommaOrBracket
    | none => throw (.ended .list)

/-- Items up to the closing bracket. -/
def items {α : Type} (item : Reader α) : Reader (List α) := do
  match ← peek with
  | some ']' => advance; return []
  | some _ => itemsFrom item (← get).length
  | none => throw (.ended .list)

/-- A list. -/
def list {α : Type} (item : Reader α) : Reader (List α) := do
  match ← peek with
  | some '[' => advance; items item
  | _ => mismatch "a sequence"

/-! ## Objects -/

/-- Members up to the closing brace, the key of the first of which is due. `member` reads what
follows a key and takes it into `acc`. -/
def membersFrom {σ : Type} (member : σ → Text → Reader σ) : (fuel : Nat) → σ → Reader σ
  | 0, _ => throw (.ended .object)
  | fuel + 1, acc => do
    advance
    let key ← Quoted.read
    let acc ← member acc key
    match ← peek with
    | some '\x7d' => advance; return acc
    | some ',' =>
      advance
      match ← peek with
      | some '"' => membersFrom member fuel acc
      | some '\x7d' => throw .trailingComma
      | some _ => throw .keyNotString
      | none => throw (.ended .value)
    | some _ => throw .expectedCommaOrBrace
    | none => throw (.ended .object)

/-- Members up to the closing brace. -/
def members {σ : Type} (member : σ → Text → Reader σ) (acc : σ) : Reader σ := do
  match ← peek with
  | some '\x7d' => advance; return acc
  | some '"' => membersFrom member (← get).length acc
  | some _ => throw .keyNotString
  | none => throw (.ended .object)

/-- An object. -/
def object {σ : Type} (member : σ → Text → Reader σ) (acc : σ) : Reader σ := do
  match ← peek with
  | some '\x7b' => advance; members member acc
  | _ => mismatch "a map"

/-! ## Records -/

/-- Whether a list whose opening bracket has been read goes on; the comma before a further item is
taken away. -/
def another (first : Bool) : Reader Bool := do
  match ← peek with
  | some ']' => return false
  | some ',' =>
    if first then return true
    else
      advance
      match ← peek with
      | some ']' => throw .trailingComma
      | some _ => return true
      | none => throw (.ended .value)
  | some _ => if first then return true else throw .expectedCommaOrBracket
  | none => throw (.ended .list)

/-- Fields in the order of `slots` for as long as there are items. When the list ends early, `short`
decides with the number of fields read. -/
def slotsFrom {σ : Type} (short : Nat → σ → Except Problem σ) :
    List (σ → Reader σ) → Nat → σ → Reader σ
  | [], _, acc => pure acc
  | slot :: slots, count, acc => do
    if ← another (count = 0) then slotsFrom short slots (count + 1) (← slot acc)
    else liftM (short count acc)

/-- The closing bracket after the last field. -/
def closeSlots : Reader Unit := do
  match ← peek with
  | some ']' => advance
  | some ',' =>
    advance
    match ← peek with
    | some ']' => throw .trailingComma
    | _ => throw .trailingCharacters
  | some _ => throw .trailingCharacters
  | none => throw (.ended .list)

/-- A record: an object with a member for each field, or a list of the fields in order. -/
def record {σ : Type} (wanted : Text) (member : σ → Text → Reader σ)
    (slots : List (σ → Reader σ)) (short : Nat → σ → Except Problem σ) (acc : σ) : Reader σ := do
  match ← peek with
  | some '\x7b' => advance; members member acc
  | some '[' =>
    advance
    let acc ← slotsFrom short slots 0 acc
    closeSlots
    return acc
  | _ => mismatch wanted

/-! ## Names from a fixed choice -/

/-- The value that a name stands for. -/
def variant {α : Type} (choice : List (Text × α)) (name : Text) : Except Problem α :=
  match choice.find? (·.1 = name) with
  | some (_, x) => .ok x
  | none => .error (.unknownVariant name (choice.map (·.1)))

/-- `null`. -/
def unit : Reader Unit := do
  match ← peek with
  | some 'n' => advance; identifier "ull"
  | _ => mismatch "unit"

/-- The key of an object that must have one. -/
def firstKey : Reader Text := do
  match ← peek with
  | some '"' => advance; Quoted.read
  | some '\x7d' => throw .expectedValue
  | some _ => throw .keyNotString
  | none => throw (.ended .object)

/-- One of the names of `choice`, alone or as the only key of an object that holds `null`. -/
def name {α : Type} (choice : List (Text × α)) : Reader α := do
  match ← peek with
  | some '"' => advance; liftM (variant choice (← Quoted.read))
  | some '\x7b' =>
    advance
    let x ← liftM (variant choice (← firstKey))
    colon
    unit
    match ← peek with
    | some '\x7d' => advance; return x
    | some _ => throw .expectedValue
    | none => throw (.ended .object)
  | some _ => throw .expectedValue
  | none => throw (.ended .value)

/-! ## Documents -/

/-- What a reader takes from a text that holds nothing else. -/
def document {α : Type} (value : Reader α) (t : Text) : Except Problem α := do
  let (x, rest) ← value t
  if dropBlanks rest = [] then .ok x else .error .trailingCharacters

end Reader

end InterfacePackage.Json
