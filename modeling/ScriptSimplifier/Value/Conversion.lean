import ScriptSimplifier.Value.Basic
import ScriptSimplifier.Value.NumericString

/-! # Conversions between primitive values

The conversions that operators apply to their operands.  A value that may be absent converts like
`undefined`, except that its texts say that it is invalid. -/

namespace ScriptSimplifier

namespace Value

/-- The value as a number. -/
def toNumber : Value → Double
  | .undefined => .nan
  | .null => .zero false
  | .boolean b => .ofNat b.toNat
  | .number x => x
  | .string t => NumericString.toDouble t

/-- The value as a string. -/
def toText : Value → Text
  | .boolean b => Text.ofBool b
  | .number x => x.toText
  | .string t => t
  | v => v.typeName

/-- The value as a condition. -/
def toBoolean : Value → Bool
  | .undefined => false
  | .null => false
  | .boolean b => b
  | .number x => x != .nan && !x.isZero
  | .string t => !t.isEmpty

/-- The integer part of a number modulo 2 ^ 32, computed in double precision. -/
def wrapDouble (x : Double) : Double :=
  let limit := Double.ofNat 0x100000000
  let rest := x.trunc.rem limit
  if rest.lt (.zero false) then rest.add limit else rest

/-- The value as an unsigned 32-bit integer. -/
def toUInt32 (v : Value) : UInt32 :=
  match v.toNumber with
  | .finite negative code => (wrapDouble (.finite negative code)).toInt.toNat.toUInt32
  | _ => 0

/-- The value as a signed 32-bit integer. -/
def toInt32 (v : Value) : Int32 := v.toUInt32.toInt32

/-- The type name that the language's own operator reports. -/
def typeOf : Value → Text
  | .null => "object"
  | v => v.typeName

end Value

/-! ## Values that may be absent -/

/-- A value, or the absence of one where a computation gave none. -/
abbrev Result := Option Value

namespace Result

/-- The type name of a result. -/
def typeName : Result → Text
  | none => "<invalid>"
  | some v => v.typeName

/-- A result as it is shown to people. -/
def shown : Result → Text
  | none => "<invalid value>"
  | some v => v.shown

/-- A result as a number. -/
def toNumber (r : Result) : Double := (r.map Value.toNumber).getD .nan

/-- A result as a string. -/
def toText : Result → Text
  | none => "<invalid>"
  | some v => v.toText

/-- A result as a condition. -/
def toBoolean (r : Result) : Bool := (r.map Value.toBoolean).getD false

/-- A result as an unsigned 32-bit integer. -/
def toUInt32 (r : Result) : UInt32 := (r.map Value.toUInt32).getD 0

/-- A result as a signed 32-bit integer. -/
def toInt32 (r : Result) : Int32 := (r.map Value.toInt32).getD 0

/-- The type name that the language's own operator reports. -/
def typeOf : Result → Text
  | none => "<invalid>"
  | some v => v.typeOf

end Result

end ScriptSimplifier
