import InterfacePackage.Decimal.Shortest
import InterfacePackage.Json.Problem

/-!
# JSON numbers

The written form of a number, its grammar, and its value. Integers of 64 bits are exact. Any other
number keeps as many leading digits as fit into 64 bits and is scaled by a power of ten in
floating-point arithmetic.
-/

namespace InterfacePackage.Json

/-- The exponent part of a number. -/
structure Exponent where
  negative : Bool
  digits : Text
deriving DecidableEq, Repr

/-- A number as written. -/
structure Numeral where
  negative : Bool
  whole : Text
  fraction : Option Text
  exponent : Option Exponent
deriving DecidableEq, Repr

namespace Numeral

/-- A natural number. -/
def ofNat (n : Nat) : Numeral := ⟨false, Text.ofNat n, none, none⟩

/-! ## Grammar -/

/-- The leading digits of a text, and the rest. -/
def spanDigits (t : Text) : Text × Text := (t.takeWhile Char.isDigit, t.dropWhile Char.isDigit)

/-- Digits of which there must be one; `atEnd` is the problem of a text that ends instead. -/
def someDigits (atEnd : Problem) (t : Text) : Except Problem (Text × Text) :=
  match t with
  | [] => .error atEnd
  | c :: _ => if c.isDigit then .ok (spanDigits t) else .error .invalidNumber

/-- The digits before the point. A zero is not followed by another digit. -/
def readWhole (atEnd : Problem) : Text → Except Problem (Text × Text)
  | '0' :: c :: rest =>
    if c.isDigit then .error .invalidNumber else .ok (['0'], c :: rest)
  | t => someDigits atEnd t

/-- The fraction, if there is one. -/
def readFraction (atEnd : Problem) : Text → Except Problem (Option Text × Text)
  | '.' :: rest => (someDigits atEnd rest).map fun (ds, rest) => (some ds, rest)
  | t => .ok (none, t)

/-- The exponent, if there is one. -/
def readExponent (atEnd : Problem) : Text → Except Problem (Option Exponent × Text)
  | c :: rest =>
    if c = 'e' ∨ c = 'E' then
      let (negative, rest) := match rest with
        | '+' :: rest => (false, rest)
        | '-' :: rest => (true, rest)
        | rest => (false, rest)
      (someDigits atEnd rest).map fun (ds, rest) => (some ⟨negative, ds⟩, rest)
    else .ok (none, c :: rest)
  | [] => .ok (none, [])

/-- A number at the start of a text, and the rest. -/
def read (atEnd : Problem) (t : Text) : Except Problem (Numeral × Text) := do
  let (negative, t) := match t with
    | '-' :: rest => (true, rest)
    | t => (false, t)
  let (whole, t) ← readWhole atEnd t
  let (fraction, t) ← readFraction atEnd t
  let (exponent, t) ← readExponent atEnd t
  return (⟨negative, whole, fraction, exponent⟩, t)

/-- A number as it is written. -/
def text (n : Numeral) : Text :=
  (if n.negative then ['-'] else []) ++ n.whole
    ++ (match n.fraction with
      | some ds => '.' :: ds
      | none => [])
    ++ (match n.exponent with
      | some e => 'e' :: (if e.negative then ['-'] else []) ++ e.digits
      | none => [])

/-! ## Value -/

/-- The value of a digit. -/
def digitValue (c : Char) : Nat := c.toNat - '0'.toNat

/-- The value of a string of digits. -/
def natOfDigits (ds : Text) : Nat := ds.foldl (fun n c => 10 * n + digitValue c) 0

/-- The natural number that a numeral writes without sign, fraction or exponent. -/
def toNat? (n : Numeral) : Option Nat :=
  if n.negative || n.fraction.isSome || n.exponent.isSome then none
  else some (natOfDigits n.whole)

/-- Digits appended to a number as long as it stays below `2 ^ 64`; the number of digits appended
goes with it. -/
def accumulate (start : Nat) : Text → Nat × Nat
  | [] => (start, 0)
  | c :: rest =>
    let next := 10 * start + digitValue c
    if next < Nat.pow 2 64 then
      let (n, k) := accumulate next rest
      (n, k + 1)
    else (start, 0)

/-- `significand * 10 ^ exponent` in floating-point arithmetic, by one multiplication or division
where the power of ten is itself a number, else by steps of `10 ^ 308`. -/
def scale (significand : Float) (exponent : Int) : (fuel : Nat) → Except Problem Float
  | 0 => .ok significand
  | fuel + 1 =>
    if exponent.natAbs ≤ 308 then
      let power := Float.ofScientific 1 false exponent.natAbs
      if 0 ≤ exponent then
        let product := significand * power
        if product.isInf then .error .numberOutOfRange else .ok product
      else .ok (significand / power)
    else if significand == 0.0 then .ok significand
    else if 0 ≤ exponent then .error .numberOutOfRange
    else scale (significand / Float.ofScientific 1 false 308) (exponent + 308) fuel

/-- The value of an exponent part, unless it exceeds 31 bits. -/
def exponentValue? (e : Exponent) : Option Int :=
  let n := natOfDigits e.digits
  if n < Nat.pow 2 31 then some (if e.negative then -n else n) else none

/-- A number as a reader finds it: an integer of 64 bits, or else a floating-point number. -/
def found (n : Numeral) : Except Problem Found := do
  let (whole, kept) := accumulate 0 n.whole
  let dropped := n.whole.length - kept
  let exact := dropped = 0 && n.fraction.isNone && n.exponent.isNone
  if exact && !n.negative then return .integer whole
  if exact && 0 < whole && whole ≤ Nat.pow 2 63 then return .integer (-whole)
  let (significand, places) := accumulate whole (n.fraction.getD [])
  let magnitude ← match n.exponent with
    | none => scale significand.toFloat (dropped - places) 400
    | some e =>
      match exponentValue? e with
      | some value => scale significand.toFloat (dropped - places + value) (value.natAbs + 400)
      | none =>
        if significand ≠ 0 && !e.negative then throw Problem.numberOutOfRange else pure 0.0
  return .floating (Decimal.ofFloat (if n.negative then -magnitude else magnitude))

end Numeral

end InterfacePackage.Json
