import ScriptSimplifier.Text.Units
import ScriptSimplifier.Value.Conversion

/-! # Operators on primitive values

The operators that can be evaluated on constants.  `BinaryOp.apply` and `UnaryOp.apply` are total;
`evalBinary?` and `evalUnary?` start from an operator's spelling and fail for one that is not an
operator on values, such as the comma or an assignment. -/

namespace ScriptSimplifier

/-- A binary operator on values. -/
inductive BinaryOp where
  | add | sub | mul | div | rem
  | bitXor | bitOr | bitAnd
  | shiftLeft | shiftRight | shiftRightZero
  | looseEq | looseNe | strictEq | strictNe
  | less | greater | atMost | atLeast
  | or | and
  deriving Repr, DecidableEq

/-- A unary operator on values. -/
inductive UnaryOp where
  | plus | minus | complement | not | typeOf | void
  deriving Repr, DecidableEq

namespace BinaryOp

/-- Every binary operator. -/
def all : List BinaryOp :=
  [.add, .sub, .mul, .div, .rem, .bitXor, .bitOr, .bitAnd, .shiftLeft, .shiftRight,
   .shiftRightZero, .looseEq, .looseNe, .strictEq, .strictNe, .less, .greater, .atMost, .atLeast,
   .or, .and]

/-- How an operator is written. -/
def spelling : BinaryOp → Text
  | .add => "+"
  | .sub => "-"
  | .mul => "*"
  | .div => "/"
  | .rem => "%"
  | .bitXor => "^"
  | .bitOr => "|"
  | .bitAnd => "&"
  | .shiftLeft => "<<"
  | .shiftRight => ">>"
  | .shiftRightZero => ">>>"
  | .looseEq => "=="
  | .looseNe => "!="
  | .strictEq => "==="
  | .strictNe => "!=="
  | .less => "<"
  | .greater => ">"
  | .atMost => "<="
  | .atLeast => ">="
  | .or => "||"
  | .and => "&&"

/-- The operator that is written like this. -/
def ofSpelling? (t : Text) : Option BinaryOp := all.find? (·.spelling == t)

end BinaryOp

namespace UnaryOp

/-- Every unary operator. -/
def all : List UnaryOp := [.plus, .minus, .complement, .not, .typeOf, .void]

/-- How an operator is written. -/
def spelling : UnaryOp → Text
  | .plus => "+"
  | .minus => "-"
  | .complement => "~"
  | .not => "!"
  | .typeOf => "typeof"
  | .void => "void"

/-- The operator that is written like this. -/
def ofSpelling? (t : Text) : Option UnaryOp := all.find? (·.spelling == t)

end UnaryOp

namespace Value

/-! ## Comparison -/

/-- Equality of values of one type: numbers are compared numerically. -/
def strictEq : Value → Value → Bool
  | .number x, .number y => x.eq y
  | l, r => l == r

/-- One of the two values that stand for "nothing". -/
def isNullish : Value → Bool
  | .undefined => true
  | .null => true
  | _ => false

/-- Equality after conversion of values of different types. -/
def looseEq (l r : Value) : Bool :=
  if l.typeName = r.typeName then strictEq l r
  else if l.isNullish || r.isNullish then l.isNullish && r.isNullish
  else l.toNumber.eq r.toNumber

/-- Whether the first value is below the second, unless they cannot be compared: strings by their
UTF-16 code units, other values as numbers. -/
def less? : Value → Value → Option Bool
  | .string s, .string t => some (s.unitsLt t)
  | l, r =>
    let x := l.toNumber
    let y := r.toNumber
    if x = .nan ∨ y = .nan then none else some (x.lt y)

end Value

/-! ## Evaluation -/

/-- The number of a 32-bit pattern read as a signed integer. -/
def signedNumber (bits : UInt32) : Value := .number (.ofInt bits.toInt32.toInt)

/-- The value of a binary operation. -/
def BinaryOp.apply : BinaryOp → Value → Value → Value
  | .add, .string s, r => .string (s ++ r.toText)
  | .add, l, .string t => .string (l.toText ++ t)
  | .add, l, r => .number (l.toNumber.add r.toNumber)
  | .sub, l, r => .number (l.toNumber.sub r.toNumber)
  | .mul, l, r => .number (l.toNumber.mul r.toNumber)
  | .div, l, r => .number (l.toNumber.div r.toNumber)
  | .rem, l, r => .number (l.toNumber.rem r.toNumber)
  | .bitXor, l, r => signedNumber (l.toUInt32 ^^^ r.toUInt32)
  | .bitOr, l, r => signedNumber (l.toUInt32 ||| r.toUInt32)
  | .bitAnd, l, r => signedNumber (l.toUInt32 &&& r.toUInt32)
  | .shiftLeft, l, r => signedNumber (l.toUInt32 <<< (r.toUInt32 &&& 31))
  | .shiftRight, l, r => .number (.ofInt (l.toInt32 >>> (r.toUInt32 &&& 31).toInt32).toInt)
  | .shiftRightZero, l, r => .number (.ofNat (l.toUInt32 >>> (r.toUInt32 &&& 31)).toNat)
  | .looseEq, l, r => .boolean (l.looseEq r)
  | .looseNe, l, r => .boolean (!l.looseEq r)
  | .strictEq, l, r => .boolean (l.strictEq r)
  | .strictNe, l, r => .boolean (!l.strictEq r)
  | .less, l, r => .boolean (l.less? r == some true)
  | .greater, l, r => .boolean (r.less? l == some true)
  | .atMost, l, r => .boolean (r.less? l == some false)
  | .atLeast, l, r => .boolean (l.less? r == some false)
  | .or, l, r => if l.toBoolean then l else r
  | .and, l, r => if l.toBoolean then r else l

/-- The value of a unary operation. -/
def UnaryOp.apply : UnaryOp → Value → Value
  | .plus, v => .number v.toNumber
  | .minus, v => .number v.toNumber.neg
  | .complement, v => signedNumber (~~~ v.toUInt32)
  | .not, v => .boolean (!v.toBoolean)
  | .typeOf, v => .string v.typeOf
  | .void, _ => .undefined

/-- The value of the binary operation with this spelling, if there is one. -/
def evalBinary? (operator : Text) (l r : Value) : Option Value :=
  (BinaryOp.ofSpelling? operator).map (·.apply l r)

/-- The value of the unary operation with this spelling, if there is one. -/
def evalUnary? (operator : Text) (v : Value) : Option Value :=
  (UnaryOp.ofSpelling? operator).map (·.apply v)

end ScriptSimplifier
