import ScriptSimplifier.Numeric.Decimal
import ScriptSimplifier.Text.Basic

/-! # The text of a number

A number is shown by its shortest decimal, positionally while the decimal point stands within or
near the digits and with an exponent otherwise.  Both zeros read `0`. -/

namespace ScriptSimplifier

/-- How decimals are laid out: the point positions for which no exponent is written. -/
structure DecimalLayout where
  /-- Points above this position are the first to stay positional. -/
  above : Int
  /-- The last point position that stays positional. -/
  upTo : Int

/-- Numbers are positional when the point position is above -6 and at most 21. -/
def scriptLayout : DecimalLayout := ⟨-6, 21⟩

/-- The text of a decimal. -/
def DecimalLayout.write (layout : DecimalLayout) (d : Decimal) : Text :=
  let digits := Text.ofNat d.digits
  let zeros (n : Int) : Text := List.replicate n.toNat (Text.ascii '0')
  let count : Int := digits.length
  let point := d.exponent + count
  if count ≤ point ∧ point ≤ layout.upTo then digits ++ zeros (point - count)
  else if 0 < point ∧ point ≤ layout.upTo then
    digits.take point.toNat ++ Text.ascii '.' :: digits.drop point.toNat
  else if layout.above < point ∧ point ≤ 0 then
    Text.ofString "0." ++ zeros (-point) ++ digits
  else
    let exponent := point - 1
    let mark : Text := if exponent < 0 then "e-" else "e+"
    let significand : Text :=
      if digits.length = 1 then digits else digits.take 1 ++ Text.ascii '.' :: digits.drop 1
    significand ++ mark ++ Text.ofNat exponent.natAbs

/-- The text of a number. -/
def Double.toText : Double → Text
  | .nan => "NaN"
  | .inf false => "Infinity"
  | .inf true => "-Infinity"
  | .finite negative code =>
    if code.val = 0 then "0"
    else
      let text := scriptLayout.write (Decimal.shortest code)
      if negative then Text.ascii '-' :: text else text

end ScriptSimplifier
