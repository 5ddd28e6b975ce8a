import ScriptSimplifier.Numeric.Decimal
import ScriptSimplifier.Text.Basic

/-! # Decimal numerals

A numeral is written as digits with an optional point and an optional exponent.  `scan?` takes the
longest numeral at the front of a text; a sign is not part of it. -/

namespace ScriptSimplifier

/-- The parts of a numeral: the digits before and after the point, and the exponent. -/
structure Numeral where
  whole : Text
  fraction : Text
  exponent : Int
  deriving Repr, DecidableEq

namespace Numeral

/-- The decimal that a numeral denotes. -/
def toDecimal (n : Numeral) : Decimal :=
  ⟨Text.digitsValue (n.whole ++ n.fraction), n.exponent - n.fraction.length⟩

/-- The digits at the front of a text, and the rest. -/
def splitDigits (t : Text) : Text × Text := (t.takeWhile Text.isDigit, t.dropWhile Text.isDigit)

/-- A nonempty exponent after its mark: an optional sign and digits. -/
def scanExponentDigits? (t : Text) : Option (Int × Text) :=
  let signed : Bool × Text :=
    match t with
    | b :: rest =>
      if b == Text.ascii '-' then (true, rest)
      else if b == Text.ascii '+' then (false, rest)
      else (false, t)
    | [] => (false, t)
  let (digits, rest) := splitDigits signed.2
  if digits.isEmpty then none
  else
    let value : Int := Text.digitsValue digits
    some (if signed.1 then -value else value, rest)

/-- The exponent at the front of a text; zero if none stands there. -/
def scanExponent (t : Text) : Int × Text :=
  match t with
  | mark :: rest =>
    if mark == Text.ascii 'e' || mark == Text.ascii 'E' then
      (scanExponentDigits? rest).getD (0, t)
    else (0, t)
  | [] => (0, t)

/-- The longest numeral at the front of a text, and the rest. -/
def scan? (t : Text) : Option (Numeral × Text) :=
  let (whole, rest) := splitDigits t
  let pointed : Text × Text :=
    match rest with
    | b :: more =>
      if b == Text.ascii '.' then
        let (fraction, after) := splitDigits more
        if whole.isEmpty && fraction.isEmpty then ([], rest) else (fraction, after)
      else ([], rest)
    | [] => ([], rest)
  if whole.isEmpty && pointed.1.isEmpty then none
  else
    let (exponent, after) := scanExponent pointed.2
    some (⟨whole, pointed.1, exponent⟩, after)

/-- Reads a text that is a numeral from its first byte to its last. -/
def read? (t : Text) : Option Numeral :=
  match scan? t with
  | some (n, []) => some n
  | _ => none

end Numeral

end ScriptSimplifier
