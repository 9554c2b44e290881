import InterfacePackage.Json.Problem
import InterfacePackage.Text.Utf8

/-!
# Quoted strings

How a string is written between quotes, how it is read, and how it is passed over where only its
grammar matters. Writing escapes the quote, the backslash and the characters below U+0020. Reading
knows those escapes and four hexadecimal digits, two of which make a pair for characters beyond
U+FFFF; passing over does not ask whether pairs are complete. Main statements: `read_letter` and
`read_cons` (how reading goes on behind a character).
-/

namespace InterfacePackage.Json.Quoted

/-! ## Writing -/

/-- A hexadecimal digit in lower case. -/
def hexDigit (n : Nat) : Char := Char.ofNat (if n < 10 then '0'.toNat + n else 'a'.toNat + n - 10)

/-- The letter that stands after a backslash for a character, where there is one. -/
def escapeLetter? : Char → Option Char
  | '"' => some '"'
  | '\\' => some '\\'
  | '\x08' => some 'b'
  | '\x0c' => some 'f'
  | '\n' => some 'n'
  | '\r' => some 'r'
  | '\t' => some 't'
  | _ => none

/-- A character as it is written between quotes. -/
def escape (c : Char) : Text :=
  match escapeLetter? c with
  | some letter => ['\\', letter]
  | none =>
    if c.toNat < 0x20 then
      ['\\', 'u', '0', '0', hexDigit (c.toNat / 16), hexDigit (c.toNat % 16)]
    else [c]

/-- A string between quotes. -/
def write (t : Text) : Text := '"' :: (t.flatMap escape ++ ['"'])

/-! ## Reading -/

/-- The value of a hexadecimal digit of either case. -/
def hexValue (c : Char) : Option Nat :=
  if '0' ≤ c ∧ c ≤ '9' then some (c.toNat - '0'.toNat)
  else if 'a' ≤ c ∧ c ≤ 'f' then some (c.toNat - 'a'.toNat + 10)
  else if 'A' ≤ c ∧ c ≤ 'F' then some (c.toNat - 'A'.toNat + 10)
  else none

/-- The value of four hexadecimal digits. -/
def hexNumber (a b c d : Char) : Option Nat := do
  return ((← hexValue a) * 4096 + (← hexValue b) * 256 + (← hexValue c) * 16 + (← hexValue d))

/-- The character that a letter after a backslash stands for. -/
def simpleEscape : Char → Option Char
  | '"' => some '"'
  | '\\' => some '\\'
  | '/' => some '/'
  | 'b' => some '\x08'
  | 'f' => some '\x0c'
  | 'n' => some '\n'
  | 'r' => some '\r'
  | 't' => some '\t'
  | _ => none

/-- The first and the second half of a pair. -/
def isHigh (n : Nat) : Bool := 0xD800 ≤ n && n ≤ 0xDBFF

@[inherit_doc isHigh]
def isLow (n : Nat) : Bool := 0xDC00 ≤ n && n ≤ 0xDFFF

/-- What is wrong with a text that should start with four hexadecimal digits. -/
def hexProblem (t : Text) : Problem :=
  if (Utf8.encode t).length < 4 then .ended .string else .invalidEscape

/-- The string whose opening quote has been read, and what follows its closing quote. -/
def read : Text → Except Problem (Text × Text)
  | [] => .error (.ended .string)
  | '"' :: rest => .ok ([], rest)
  | '\\' :: 'u' :: a :: b :: c :: d :: rest =>
    match hexNumber a b c d with
    | none => .error (hexProblem (a :: b :: c :: d :: rest))
    | some n =>
      if isLow n then .error .loneSurrogate
      else if isHigh n then
        match rest with
        | '\\' :: 'u' :: a₂ :: b₂ :: c₂ :: d₂ :: rest₂ =>
          match hexNumber a₂ b₂ c₂ d₂ with
          | none => .error (hexProblem (a₂ :: b₂ :: c₂ :: d₂ :: rest₂))
          | some m =>
            if isLow m then
              (read rest₂).map fun (t, rest) =>
                (Char.ofNat (0x10000 + (n - 0xD800) * 1024 + (m - 0xDC00)) :: t, rest)
            else .error .loneSurrogate
        | '\\' :: 'u' :: short => .error (hexProblem short)
        | [] => .error (.ended .string)
        | ['\\'] => .error (.ended .string)
        | _ => .error .unfinishedPair
      else (read rest).map fun (t, rest) => (Char.ofNat n :: t, rest)
  | '\\' :: 'u' :: short => .error (hexProblem short)
  | '\\' :: c :: rest =>
    match simpleEscape c with
    | some e => (read rest).map fun (t, rest) => (e :: t, rest)
    | none => .error .invalidEscape
  | ['\\'] => .error (.ended .string)
  | c :: rest =>
    if c.toNat < 0x20 then .error .controlCharacter
    else (read rest).map fun (t, rest) => (c :: t, rest)

/-- What follows the closing quote of a string whose opening quote has been read. -/
def skip : Text → Except Problem Text
  | [] => .error (.ended .string)
  | '"' :: rest => .ok rest
  | '\\' :: 'u' :: a :: b :: c :: d :: rest =>
    match hexNumber a b c d with
    | none => .error (hexProblem (a :: b :: c :: d :: rest))
    | some _ => skip rest
  | '\\' :: 'u' :: short => .error (hexProblem short)
  | '\\' :: c :: rest =>
    match simpleEscape c with
    | some _ => skip rest
    | none => .error .invalidEscape
  | ['\\'] => .error (.ended .string)
  | c :: rest => if c.toNat < 0x20 then .error .controlCharacter else skip rest

/-! ## Characters between quotes -/

/-- The digits written for a control character are those of its number. -/
theorem hexNumber_hexDigit :
    ∀ n < 0x20, hexNumber '0' '0' (hexDigit (n / 16)) (hexDigit (n % 16)) = some n := by
  decide

/-- A letter after a backslash is read as the character it is written for. -/
theorem simpleEscape_of_escapeLetter? {c letter : Char} (h : escapeLetter? c = some letter) :
    simpleEscape letter = some c := by
  unfold escapeLetter? at h
  split at h <;> cases h <;> decide

/-- A backslash and a letter are read as the character that the letter stands for. -/
theorem read_letter {c letter : Char} (h : simpleEscape letter = some c) (hu : letter ≠ 'u')
    (s : Text) :
    read ('\\' :: letter :: s) = (read s).map fun (t, rest) => (c :: t, rest) := by
  rw [read]
  · simp [h]
  · simp [hu]
  · simp [hu]

/-- A character that needs no escape is read as itself. -/
theorem read_cons {c : Char} (h : escapeLetter? c = none) (hc : ¬ c.toNat < 0x20) (s : Text) :
    read (c :: s) = (read s).map fun (t, rest) => (c :: t, rest) := by
  have hquote : c ≠ '"' := fun e => by simp [e, escapeLetter?] at h
  have hslash : c ≠ '\\' := fun e => by simp [e, escapeLetter?] at h
  rw [read]
  · rw [if_neg hc]
  · exact hquote
  · exact fun _ _ _ _ _ e _ => hslash e
  · exact fun _ e _ => hslash e
  · exact fun _ _ e _ => hslash e
  · exact fun e _ => hslash e

end InterfacePackage.Json.Quoted
