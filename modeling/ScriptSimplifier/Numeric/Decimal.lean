import ScriptSimplifier.Numeric.Double

/-! # Decimal numbers

A decimal is a whole number times a power of ten.  `Decimal.toDouble` rounds one to the nearest
double, and `Decimal.shortest` is the decimal with the fewest digits that rounds to a given
magnitude; of several it is the nearest one, and a tie goes to the even last digit. -/

namespace ScriptSimplifier

/-- The number `digits * 10 ^ exponent`. -/
structure Decimal where
  digits : Nat
  exponent : Int
  deriving Repr, DecidableEq

/-- How many decimal digits a number has. -/
def decimalLength (n : Nat) : Nat := (Nat.toDigits 10 n).length

namespace Decimal

/-- The double nearest to a decimal, of the given sign.  A decimal of 10 ^ 310 or more is beyond
all finite doubles and one below 10 ^ -330 rounds to zero, so huge powers are never formed. -/
def toDouble (negative : Bool) (d : Decimal) : Double :=
  let point : Int := d.exponent + decimalLength d.digits
  if d.digits = 0 then .zero negative
  else if 310 < point then .inf negative
  else if point < -330 then .zero negative
  else .ofRatio negative (d.digits * Nat.pow 10 d.exponent.toNat)
    (Nat.pow 10 (-d.exponent).toNat)

/-- The position of the decimal point of a magnitude: the least power of ten above it. -/
def pointOf (units : Nat) : Int :=
  (decimalLength (units * Nat.pow 10 400 / Double.one) : Int) - 400

/-- The multiple of `10 ^ grid` that stands for `units` among those strictly between `low / 2` and
`high / 2`, or at these ends if `closed`: one of the two neighbours, the nearer one if both do. -/
def onGrid? (units low high : Nat) (closed : Bool) (grid : Int) : Option Nat :=
  let up := Nat.pow 10 (-grid).toNat
  let step := Double.one * Nat.pow 10 grid.toNat
  let below := units * up / step
  let inside (d : Nat) : Bool :=
    if closed then low * up ≤ 2 * (d * step) && 2 * (d * step) ≤ high * up
    else low * up < 2 * (d * step) && 2 * (d * step) < high * up
  match inside below, inside (below + 1) with
  | true, true => some (roundHalfEven (units * up) step)
  | true, false => some below
  | false, true => some (below + 1)
  | false, false => none

/-- The shortest decimal for a magnitude, with `count` digits at first and more if needed. -/
def search (units low high : Nat) (closed : Bool) (point : Int) : (more count : Nat) → Decimal
  | 0, count => ⟨roundHalfEven (units * Nat.pow 10 (count - point).toNat)
      (Double.one * Nat.pow 10 (point - count).toNat), point - count⟩
  | more + 1, count =>
    match onGrid? units low high closed (point - count) with
    | some digits =>
      if digits = Nat.pow 10 count then ⟨1, point⟩ else ⟨digits, point - count⟩
    | none => search units low high closed point more (count + 1)

/-- The decimal with the fewest digits that rounds to a nonzero magnitude. -/
def shortest (code : Magnitude) : Decimal :=
  let units := Double.units code
  let low := binary64.units (code.val - 1) + units
  let high := units + binary64.units (code.val + 1)
  search units low high (code.val % 2 == 0) (pointOf units) 17 1

end Decimal

end ScriptSimplifier
