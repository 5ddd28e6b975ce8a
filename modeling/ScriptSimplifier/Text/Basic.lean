/-! # Byte strings

Names, string values and printed text are sequences of bytes.  They are mostly UTF-8, but a string
literal may spell any byte, so nothing here assumes that a text is well-formed. -/

namespace ScriptSimplifier

/-- A sequence of bytes. -/
abbrev Text := List UInt8

namespace Text

/-- The UTF-8 bytes of a string. -/
def ofString (s : String) : Text := s.toList.flatMap String.utf8EncodeChar

instance : Coe String Text := ⟨ofString⟩

/-- The byte of an ASCII character. -/
def ascii (c : Char) : UInt8 := c.toUInt8

/-! ## Classes of bytes -/

/-- A decimal digit. -/
def isDigit (b : UInt8) : Bool := ascii '0' ≤ b && b ≤ ascii '9'

/-- An ASCII letter. -/
def isLetter (b : UInt8) : Bool :=
  (ascii 'a' ≤ b && b ≤ ascii 'z') || (ascii 'A' ≤ b && b ≤ ascii 'Z')

/-- A byte that may start an identifier. -/
def isIdentifierStart (b : UInt8) : Bool := isLetter b || b == ascii '_' || b == ascii '$'

/-- A byte that may continue an identifier. -/
def isIdentifierPart (b : UInt8) : Bool := isIdentifierStart b || isDigit b

/-- The value of a hexadecimal digit. -/
def hexDigit? (b : UInt8) : Option Nat :=
  if isDigit b then some (b.toNat - 48)
  else if ascii 'a' ≤ b && b ≤ ascii 'f' then some (b.toNat - 87)
  else if ascii 'A' ≤ b && b ≤ ascii 'F' then some (b.toNat - 55)
  else none

/-! ## Numbers as text -/

/-- The decimal digits of a natural number. -/
def ofNat (n : Nat) : Text := (Nat.toDigits 10 n).map ascii

/-- The decimal digits of an integer, after a minus sign if it is negative. -/
def ofInt (n : Int) : Text :=
  if n < 0 then ascii '-' :: ofNat n.natAbs else ofNat n.natAbs

/-- The number that decimal digits spell. -/
def digitsValue (digits : Text) : Nat :=
  digits.foldl (fun value b => 10 * value + (b.toNat - 48)) 0

/-- The lower-case hexadecimal digits of a number, at least `width` of them. -/
def hex (width n : Nat) : Text :=
  let digits := (Nat.toDigits 16 n).map ascii
  List.replicate (width - digits.length) (ascii '0') ++ digits

/-! ## Pieces -/

/-- The parts with a separator between each two. -/
def join (separator : Text) (parts : List Text) : Text := separator.intercalate parts

/-- What follows `start` in a text that begins with it. -/
def dropStart? (start t : Text) : Option Text :=
  if start.isPrefixOf t then some (t.drop start.length) else none

/-- The lines of a text: it is cut at every line feed. -/
def lines : Text → List Text
  | [] => [[]]
  | b :: rest =>
    if b == ascii '\n' then [] :: lines rest
    else
      match lines rest with
      | [] => [[b]]
      | first :: others => (b :: first) :: others

end Text

end ScriptSimplifier
