import InterfacePackage.Text.Basic

/-!
# Shortest decimals

The decimal with the fewest digits that reads back as a given floating-point number. The reals that
round to a number form an interval; a decimal reads back if it lies in it. Of the grids of multiples
of a power of ten the coarsest with such a decimal has the fewest digits, and of two neighbours on
it the nearer is taken.
-/

namespace InterfacePackage.Decimal

/-- The value `significand * 2 ^ exponent` of a finite floating-point number without its sign. -/
structure Binary where
  significand : Nat
  exponent : Int
  /-- The gap to the number below is half the gap to the number above. -/
  narrowBelow : Bool
deriving DecidableEq, Repr

/-- The value held in the bits of a finite number. -/
def Binary.ofBits (bits : UInt64) : Binary :=
  let field := (bits >>> 52).toNat % 2048
  let fraction := bits.toNat % Nat.pow 2 52
  if field = 0 then ⟨fraction, -1074, false⟩
  else ⟨Nat.pow 2 52 + fraction, (field : Int) - 1075, fraction = 0 && field ≠ 1⟩

/-- `digits * 10 ^ exponent` compared with `quarters * 2 ^ scale`. -/
def compareScaled (digits : Nat) (exponent : Int) (quarters : Nat) (scale : Int) : Ordering :=
  compare (digits * Nat.pow 10 exponent.toNat * Nat.pow 2 (-scale).toNat)
    (quarters * Nat.pow 2 scale.toNat * Nat.pow 10 (-exponent).toNat)

namespace Binary

/-- Whether `digits * 10 ^ exponent` is among the reals that round to `x`. The ends of their
interval belong to it exactly when the significand is even. -/
def readsBack (x : Binary) (digits : Nat) (exponent : Int) : Bool :=
  let scale := x.exponent - 2
  let low := 4 * x.significand - (if x.narrowBelow then 1 else 2)
  let high := 4 * x.significand + 2
  let even := x.significand % 2 = 0
  let fromLow := compareScaled digits exponent low scale
  let fromHigh := compareScaled digits exponent high scale
  (fromLow = .gt || even && fromLow = .eq) && (fromHigh = .lt || even && fromHigh = .eq)

/-- The greatest multiple of `10 ^ exponent` that is not above `x`, counted in that unit. -/
def floorOn (x : Binary) (exponent : Int) : Nat :=
  (x.significand * Nat.pow 2 x.exponent.toNat * Nat.pow 10 (-exponent).toNat)
    / (Nat.pow 2 (-x.exponent).toNat * Nat.pow 10 exponent.toNat)

/-- The multiple of `10 ^ exponent` that reads back as `x`: the nearer one of two, and of two
equally near ones the even one. -/
def pickOn (x : Binary) (exponent : Int) : Option Nat :=
  let below := x.floorOn exponent
  let above := below + 1
  match x.readsBack below exponent, x.readsBack above exponent with
  | false, false => none
  | true, false => some below
  | false, true => some above
  | true, true =>
    match compareScaled (below + above) exponent (8 * x.significand) (x.exponent - 2) with
    | .gt => some below
    | .lt => some above
    | .eq => some (if below % 2 = 0 then below else above)

/-- The exponents of the grids that can matter, from coarse to fine. -/
def grids : List Int := (List.range 634).map fun k : Nat => 309 - (k : Int)

/-- The shortest decimal that reads back, as digits and an exponent of ten; none for zero. -/
def shortest (x : Binary) : Option (Nat × Int) :=
  if x.significand = 0 then none
  else grids.findSome? fun exponent => (x.pickOn exponent).map fun digits => (digits, exponent)

end Binary

/-- `digits * 10 ^ exponent` written with a point or an exponent: positionally when the first digit
counts between `10 ^ -5` and `10 ^ 15`, else with one digit before the point and a signed exponent.
-/
def layout (digits : Nat) (exponent : Int) : Text :=
  let ds := Text.ofNat digits
  let leading := ds.length + exponent - 1
  if -5 ≤ leading ∧ leading ≤ 15 then
    if 0 ≤ exponent then ds ++ List.replicate exponent.toNat '0' ++ ".0"
    else if 0 ≤ leading then
      ds.take (leading.toNat + 1) ++ '.' :: ds.drop (leading.toNat + 1)
    else "0." ++ List.replicate (-leading - 1).toNat '0' ++ ds
  else
    let mantissa := match ds with
      | d :: e :: rest => d :: '.' :: e :: rest
      | ds => ds
    mantissa ++ 'e' :: (if leading < 0 then '-' else '+') :: Text.ofNat leading.natAbs

/-- A finite floating-point number in its shortest form, always with a point or an exponent. -/
def ofFloat (x : Float) : Text :=
  let bits := x.toBits
  let written := match (Binary.ofBits bits).shortest with
    | some (digits, exponent) => layout digits exponent
    | none => "0.0"
  if bits >>> 63 = 1 then '-' :: written else written

end InterfacePackage.Decimal
