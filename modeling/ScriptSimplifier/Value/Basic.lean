import ScriptSimplifier.Numeric.Layout
import ScriptSimplifier.Text.Quoted

/-! # Primitive values

The values that constant expressions have.  Equality of `Value` is the relation "the same value":
`nan` is the same as itself and the two zeros are different. -/

namespace ScriptSimplifier

/-- A primitive value of the script language. -/
inductive Value where
  | undefined
  | null
  | boolean (b : Bool)
  | number (x : Double)
  | string (t : Text)
  deriving Repr, DecidableEq

/-- The text of a truth value. -/
def Text.ofBool (b : Bool) : Text := if b then "true" else "false"

namespace Value

/-- The name of a value's type. -/
def typeName : Value → Text
  | .undefined => "undefined"
  | .null => "null"
  | .boolean _ => "boolean"
  | .number _ => "number"
  | .string _ => "string"

/-- A value as it is shown to people: strings are quoted and the negative zero has its sign. -/
def shown : Value → Text
  | .undefined => "undefined"
  | .null => "null"
  | .boolean b => Text.ofBool b
  | .number x => if x = .zero true then "-0" else x.toText
  | .string t => t.quote

/-- What is shown for a value that may be absent. -/
def optionShown : Option Value → Text
  | none => "None"
  | some v => Text.ofString "Some(" ++ v.shown ++ Text.ofString ")"

end Value

end ScriptSimplifier
