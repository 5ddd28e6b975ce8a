import ScriptSimplifier.Numeric.Numeral
import ScriptSimplifier.Text.Blank

/-! # Numbers in strings

The number that a string stands for in arithmetic: white space around it does not count, an empty
string is zero, and what is no numeric literal is `nan`. -/

namespace ScriptSimplifier

namespace NumericString

/-- White space in and around numeric strings. -/
def isSpace (c : Char) : Bool := isBlank c || c.toNat == 0xFEFF

/-- The value of a digit below a radix. -/
def digit? (radix : Nat) (b : UInt8) : Option Nat :=
  (Text.hexDigit? b).filter (· < radix)

/-- The number that digits of a radix spell, accumulated in double precision. -/
def ofDigits (radix : Nat) (digits : Text) : Double :=
  let step (x : Double) (b : UInt8) : Option Double :=
    (digit? radix b).map fun d => (x.mul (.ofNat radix)).add (.ofNat d)
  (digits.foldlM step (.zero false)).getD .nan

/-- The radix that a letter after a leading zero announces. -/
def radix? (letter : UInt8) : Option Nat :=
  if letter == Text.ascii 'x' || letter == Text.ascii 'X' then some 16
  else if letter == Text.ascii 'o' || letter == Text.ascii 'O' then some 8
  else if letter == Text.ascii 'b' || letter == Text.ascii 'B' then some 2
  else none

/-- The radix and the digits of a literal such as `0x1F`. -/
def radixLiteral? (t : Text) : Option (Nat × Text) :=
  match t with
  | zero :: letter :: first :: rest =>
    if zero == Text.ascii '0' then (radix? letter).map (·, first :: rest) else none
  | _ => none

/-- A sign at the front of a text, and the rest. -/
def splitSign (t : Text) : Bool × Text :=
  match t with
  | b :: rest =>
    if b == Text.ascii '-' then (true, rest)
    else if b == Text.ascii '+' then (false, rest)
    else (false, t)
  | [] => (false, [])

/-- The number of a decimal literal or `Infinity`, without its sign. -/
def unsigned (t : Text) : Double :=
  if t = Text.ofString "Infinity" then .inf false
  else
    match Numeral.read? t with
    | some n => n.toDecimal.toDouble false
    | none => .nan

/-- The number that a string stands for. -/
def toDouble (t : Text) : Double :=
  let body := t.trimBy isSpace
  if body.isEmpty then .zero false
  else
    match radixLiteral? body with
    | some (radix, digits) => ofDigits radix digits
    | none =>
      let (negative, rest) := splitSign body
      if negative then (unsigned rest).neg else unsigned rest

end NumericString

end ScriptSimplifier
