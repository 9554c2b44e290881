import InterfacePackage.Text.Mention

/-!
# What can be wrong with a JSON document

A document may end too early, break the grammar, or hold a value of another kind than its reader
wants. Each problem is a cause; `Problem.message` words it.
-/

namespace InterfacePackage.Json

/-- What kind of trouble a document is in. -/
inductive Category where
  /-- The document ends too early. -/
  | truncated
  /-- The document is not JSON. -/
  | malformed
  /-- The document is JSON, but not of the kind wanted. -/
  | mismatched
deriving DecidableEq, Repr

/-- What a document was in the middle of when it ended. -/
inductive Unfinished where
  | value
  | string
  | list
  | object
deriving DecidableEq, Repr

/-- What a reader found where it wanted something else. -/
inductive Found where
  | null
  | boolean (b : Bool)
  | integer (n : Int)
  /-- A number that is not an integer of 64 bits, in its shortest form. -/
  | floating (written : Text)
  | string (s : Text)
  | sequence
  | map
deriving DecidableEq, Repr

/-- What is wrong with a document. -/
inductive Problem where
  | ended (what : Unfinished)
  | expectedValue
  | expectedIdentifier
  | expectedColon
  | expectedCommaOrBrace
  | expectedCommaOrBracket
  | trailingComma
  | trailingCharacters
  | keyNotString
  | invalidEscape
  | invalidNumber
  | numberOutOfRange
  | loneSurrogate
  | unfinishedPair
  | controlCharacter
  | wrongKind (found : Found) (wanted : Text)
  | duplicateField (key : Text)
  | unknownField (key : Text) (known : List Text)
  | unknownVariant (name : Text) (known : List Text)
  | wrongLength (length : Nat) (wanted : Text)
deriving DecidableEq, Repr

/-- What a document was in the middle of, in words. -/
def Unfinished.message : Unfinished → Text
  | value => "a value"
  | string => "a string"
  | list => "a list"
  | object => "an object"

/-- What was found, in words. -/
def Found.message : Found → Text
  | null => "null"
  | boolean true => "boolean `true`"
  | boolean false => "boolean `false`"
  | integer n => "integer `" ++ Text.ofInt n ++ "`"
  | floating written => "floating point `" ++ written ++ "`"
  | string s => "string " ++ s.mention
  | sequence => "sequence"
  | map => "map"

/-- Names between backquotes. -/
def quoted (names : List Text) : Text :=
  Text.join ", " (names.map fun n => "`" ++ n ++ "`")

namespace Problem

/-- Which kind of trouble a problem is. -/
def category : Problem → Category
  | ended _ => .truncated
  | wrongKind .. | duplicateField .. | unknownField .. | unknownVariant .. | wrongLength .. =>
    .mismatched
  | _ => .malformed

/-- A problem in words. -/
def message : Problem → Text
  | ended what => "EOF while parsing " ++ what.message
  | expectedValue => "expected value"
  | expectedIdentifier => "expected ident"
  | expectedColon => "expected `:`"
  | expectedCommaOrBrace => "expected `,` or `\x7d`"
  | expectedCommaOrBracket => "expected `,` or `]`"
  | trailingComma => "trailing comma"
  | trailingCharacters => "trailing characters"
  | keyNotString => "key must be a string"
  | invalidEscape => "invalid escape"
  | invalidNumber => "invalid number"
  | numberOutOfRange => "number out of range"
  | loneSurrogate => "lone leading surrogate in hex escape"
  | unfinishedPair => "unexpected end of hex escape"
  | controlCharacter => "control character (\\u0000-\\u001F) found while parsing a string"
  | wrongKind found wanted => "invalid type: " ++ found.message ++ ", expected " ++ wanted
  | duplicateField key => "duplicate field `" ++ key ++ "`"
  | unknownField key known => "unknown field `" ++ key ++ "`, expected one of " ++ quoted known
  | unknownVariant name known =>
    "unknown variant `" ++ name ++ "`, expected one of " ++ quoted known
  | wrongLength length wanted =>
    "invalid length " ++ Text.ofNat length ++ ", expected " ++ wanted

end Problem

end InterfacePackage.Json
