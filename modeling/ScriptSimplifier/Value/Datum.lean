import ScriptSimplifier.Value.Conversion

/-! # Values from program data

A program that builds constant tables hands over data of its own types.  `Datum.toValue` accepts
truth values, texts and the common number types, and refuses everything else by showing it. -/

namespace ScriptSimplifier

/-- A piece of data of the calling program, by its type. -/
inductive Datum where
  | nothing
  | value (v : Result)
  | double (x : Double)
  | single (x : Double)
  | int (n : Int64)
  | int32 (n : Int32)
  | int64 (n : Int64)
  | uint32 (n : UInt32)
  | uint8 (n : UInt8)
  | int16 (n : Int16)
  | text (t : Text)
  | flag (b : Bool)
  | ints (ns : List Int)
  deriving DecidableEq

/-- A datum that is no primitive value: how it is shown and the name of its type. -/
structure NotConstant where
  shown : Text
  typeName : Text
  deriving Repr, DecidableEq

namespace NotConstant

/-- What every refusal starts with. -/
def reason : Text := "value is not constant"

/-- The text of a refusal. -/
def message (e : NotConstant) : Text :=
  reason ++ Text.ofString ": " ++ e.shown ++ Text.ofString " (" ++ e.typeName ++ Text.ofString ")"

end NotConstant

/-- The primitive value of a datum. -/
def Datum.toValue : Datum → Except NotConstant Value
  | .nothing => .ok .undefined
  | .value (some v) => .ok v
  | .value none => .error ⟨Result.shown none, "constant.Value"⟩
  | .double x => .ok (.number x)
  | .single x => .ok (.number x.toSingle)
  | .int n => .ok (.number (.ofInt n.toInt))
  | .int32 n => .ok (.number (.ofInt n.toInt))
  | .int64 n => .ok (.number (.ofInt n.toInt))
  | .uint32 n => .ok (.number (.ofNat n.toNat))
  | .uint8 n => .error ⟨Text.ofNat n.toNat, "uint8"⟩
  | .int16 n => .error ⟨Text.ofInt n.toInt, "int16"⟩
  | .text t => .ok (.string t)
  | .flag b => .ok (.boolean b)
  | .ints ns =>
    .error ⟨Text.ofString "[" ++ Text.join " " (ns.map Text.ofInt) ++ Text.ofString "]", "[]int"⟩

end ScriptSimplifier
