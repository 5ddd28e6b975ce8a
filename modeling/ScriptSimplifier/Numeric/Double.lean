import ScriptSimplifier.Numeric.Format

/-! # Double-precision numbers

`Double` has one value that is not a number, so its equality is the relation "the same value":
the two zeros differ and `nan` equals itself.  The numeric comparisons `eq` and `lt` are separate.
Each operation computes the exact result in units of `binary64` and rounds it once. -/

namespace ScriptSimplifier

/-- The codes of finite 64-bit magnitudes. -/
abbrev Magnitude := Fin 0x7FF0000000000000

/-- A double-precision number: a finite one is a sign and a magnitude. -/
inductive Double where
  | nan
  | inf (negative : Bool)
  | finite (negative : Bool) (code : Magnitude)
  deriving Repr, DecidableEq

namespace Double

/-! ## Construction -/

/-- The number of units in a magnitude. -/
def units (code : Magnitude) : Nat := binary64.units code.val

/-- The number nearest to `num / den` units, of the given sign. -/
def ofUnits (negative : Bool) (num den : Nat) : Double :=
  let code := binary64.nearestCode num den
  if small : code < 0x7FF0000000000000 then .finite negative ⟨code, small⟩ else .inf negative

/-- How many units make one. -/
def one : Nat := Nat.pow 2 binary64.unitExponent

/-- The number nearest to the quotient `num / den`, of the given sign. -/
def ofRatio (negative : Bool) (num den : Nat) : Double :=
  ofUnits negative (num * one) den

/-- The number nearest to a natural number. -/
def ofNat (n : Nat) : Double := ofRatio false n 1

/-- The number nearest to an integer. -/
def ofInt (n : Int) : Double := ofRatio (n < 0) n.natAbs 1

/-- Zero of the given sign. -/
def zero (negative : Bool) : Double := .finite negative ⟨0, by decide⟩

/-- The bit of a pattern that stands for the sign. -/
def signBit : Nat := 0x8000000000000000

/-- The number with the given 64-bit pattern. -/
def ofBits (bits : UInt64) : Double :=
  let code := bits.toNat % signBit
  let negative := decide (signBit ≤ bits.toNat)
  if small : code < 0x7FF0000000000000 then .finite negative ⟨code, small⟩
  else if code = 0x7FF0000000000000 then .inf negative
  else .nan

/-- The 64-bit pattern of a number; `nan` has none of its own. -/
def toBits? : Double → Option Nat
  | .nan => none
  | .inf negative => some ((if negative then signBit else 0) + 0x7FF0000000000000)
  | .finite negative code => some ((if negative then signBit else 0) + code.val)

/-! ## Order -/

/-- Where a number stands on the line, in units; an infinity stands just past the last finite
number of its sign. -/
def position? : Double → Option Int
  | .nan => none
  | .inf negative =>
    let far : Int := binary64.units 0x7FF0000000000000
    some (if negative then -far else far)
  | .finite negative code => some (if negative then -(units code : Int) else units code)

/-- Numeric equality: the zeros are equal, `nan` equals nothing. -/
def eq (x y : Double) : Bool :=
  match x.position?, y.position? with
  | some p, some q => p == q
  | _, _ => false

/-- Numeric order; `nan` is not comparable. -/
def lt (x y : Double) : Bool :=
  match x.position?, y.position? with
  | some p, some q => p < q
  | _, _ => false

/-- One of the two zeros. -/
def isZero (x : Double) : Bool := x.position? == some 0

/-! ## Arithmetic -/

/-- The same magnitude with the other sign. -/
def neg : Double → Double
  | .nan => .nan
  | .inf negative => .inf (!negative)
  | .finite negative code => .finite (!negative) code

/-- Whether the sign is negative; `nan` has no sign. -/
def isNegative : Double → Bool
  | .nan => false
  | .inf negative => negative
  | .finite negative _ => negative

/-- The signed number of units of a finite number. -/
def signedUnits (negative : Bool) (code : Magnitude) : Int :=
  if negative then -(units code : Int) else units code

/-- Addition.  An exact sum of zero is negative only if both terms are. -/
def add : Double → Double → Double
  | .nan, _ => .nan
  | _, .nan => .nan
  | .inf a, .inf b => if a = b then .inf a else .nan
  | .inf a, .finite _ _ => .inf a
  | .finite _ _, .inf b => .inf b
  | .finite a m, .finite b n =>
    let sum := signedUnits a m + signedUnits b n
    if sum = 0 then zero (a && b) else ofUnits (decide (sum < 0)) sum.natAbs 1

/-- Subtraction. -/
def sub (x y : Double) : Double := add x y.neg

/-- Multiplication. -/
def mul : Double → Double → Double
  | .nan, _ => .nan
  | _, .nan => .nan
  | .inf a, .inf b => .inf (a != b)
  | .inf a, .finite b n => if n.val = 0 then .nan else .inf (a != b)
  | .finite a m, .inf b => if m.val = 0 then .nan else .inf (a != b)
  | .finite a m, .finite b n => ofUnits (a != b) (units m * units n) one

/-- Division. -/
def div : Double → Double → Double
  | .nan, _ => .nan
  | _, .nan => .nan
  | .inf _, .inf _ => .nan
  | .inf a, .finite b _ => .inf (a != b)
  | .finite a _, .inf b => zero (a != b)
  | .finite a m, .finite b n =>
    if n.val = 0 then if m.val = 0 then .nan else .inf (a != b)
    else ofUnits (a != b) (units m * one) (units n)

/-- The remainder of division toward zero; it has the sign of the dividend. -/
def rem : Double → Double → Double
  | .nan, _ => .nan
  | _, .nan => .nan
  | .inf _, _ => .nan
  | .finite a m, .inf _ => .finite a m
  | .finite a m, .finite _ n =>
    if n.val = 0 then .nan else ofUnits a (units m % units n) 1

/-- The integer part, keeping the sign. -/
def trunc : Double → Double
  | .finite a m => ofUnits a (units m / one * one) 1
  | x => x

/-- The integer part of a finite number as an integer; zero for the others. -/
def toInt : Double → Int
  | .finite a m => if a then -((units m / one : Nat) : Int) else (units m / one : Nat)
  | _ => 0

/-- The number rounded to the 32-bit format. -/
def toSingle : Double → Double
  | .finite a m =>
    let scale := Nat.pow 2 (binary64.unitExponent - binary32.unitExponent)
    let code := binary32.nearestCode (units m) scale
    if code < binary32.infinityCode then ofUnits a (binary32.units code * scale) 1 else .inf a
  | x => x

end Double

end ScriptSimplifier
