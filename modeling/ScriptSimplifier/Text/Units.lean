import ScriptSimplifier.Text.Glyph

/-! # The order of UTF-16 code units

Texts are compared by their UTF-16 code units, a stray byte counting as U+FFFD.  This differs from
the order by code point where one side holds a character beyond U+FFFF. -/

namespace ScriptSimplifier

/-- The UTF-16 code units of a character. -/
def charUnits (c : Char) : List Nat :=
  let n := c.toNat
  if n < 0x10000 then [n]
  else [0xD800 + (n - 0x10000) / 0x400, 0xDC00 + (n - 0x10000) % 0x400]

namespace Text

/-- The UTF-16 code units of a text. -/
def units (t : Text) : List Nat := t.chars.flatMap charUnits

/-- Lexicographic order of the code units. -/
def unitsLt (s t : Text) : Bool := decide (s.units < t.units)

end Text

end ScriptSimplifier
