import ScriptSimplifier.Text.Printable

/-! # Quoted text

`quote` writes any text between double quotes so that the result is printable UTF-8, and `unquote?`
reads such a form.  Reading accepts more than writing produces: every character has several
spellings. -/

namespace ScriptSimplifier

namespace Quoted

/-- The letter of a one-letter escape for a control character. -/
def controlLetter? (n : Nat) : Option Char :=
  match n with
  | 0x07 => some 'a'
  | 0x08 => some 'b'
  | 0x0C => some 'f'
  | 0x0A => some 'n'
  | 0x0D => some 'r'
  | 0x09 => some 't'
  | 0x0B => some 'v'
  | _ => none

/-- How a character stands between the quotes. -/
def writeChar (c : Char) : Text :=
  let n := c.toNat
  if c = '"' ∨ c = '\\' then [Text.ascii '\\', Text.ascii c]
  else if isPrintable c then String.utf8EncodeChar c
  else
    match controlLetter? n with
    | some letter => [Text.ascii '\\', Text.ascii letter]
    | none =>
      if n < 0x80 then Text.ofString "\\x" ++ Text.hex 2 n
      else if n < 0x10000 then Text.ofString "\\u" ++ Text.hex 4 n
      else Text.ofString "\\U" ++ Text.hex 8 n

/-- How a glyph stands between the quotes; a stray byte is written by its number. -/
def writeGlyph : Glyph → Text
  | .char c => writeChar c
  | .stray b => Text.ofString "\\x" ++ Text.hex 2 b.toNat

/-- The byte that a one-letter escape stands for. -/
def letterByte? (letter : UInt8) : Option UInt8 :=
  if letter == Text.ascii 'a' then some 0x07
  else if letter == Text.ascii 'b' then some 0x08
  else if letter == Text.ascii 'f' then some 0x0C
  else if letter == Text.ascii 'n' then some 0x0A
  else if letter == Text.ascii 'r' then some 0x0D
  else if letter == Text.ascii 't' then some 0x09
  else if letter == Text.ascii 'v' then some 0x0B
  else if letter == Text.ascii '\\' then some letter
  else if letter == Text.ascii '"' then some letter
  else none

/-- How many hexadecimal digits follow the letter of a numbered escape. -/
def hexWidth? (letter : UInt8) : Option Nat :=
  if letter == Text.ascii 'x' then some 2
  else if letter == Text.ascii 'u' then some 4
  else if letter == Text.ascii 'U' then some 8
  else none

/-- The number that hexadecimal digits spell. -/
def hexValue? (digits : Text) : Option Nat :=
  digits.foldlM (fun value b => (Text.hexDigit? b).map (16 * value + ·)) 0

/-- An octal digit's value. -/
def octalDigit? (b : UInt8) : Option Nat :=
  if Text.ascii '0' ≤ b && b ≤ Text.ascii '7' then some (b.toNat - 48) else none

/-- Reads what follows a backslash: the bytes it stands for and how many bytes it takes. -/
def escape? (letter : UInt8) (rest : Text) : Option (Text × Nat) :=
  match letterByte? letter, hexWidth? letter with
  | some b, _ => some ([b], 1)
  | none, some width => do
    let digits := rest.take width
    guard (digits.length = width)
    let value ← hexValue? digits
    if width = 2 then return ([value.toUInt8], 3)
    let c ← Glyph.scalar? 0 value
    return (String.utf8EncodeChar c, width + 1)
  | none, none => do
    let high ← octalDigit? letter
    let middle ← octalDigit? (← rest[0]?)
    let low ← octalDigit? (← rest[1]?)
    let value := (high * 8 + middle) * 8 + low
    guard (value ≤ 255)
    return ([value.toUInt8], 3)

/-- What is read for a byte that belongs to no character. -/
def replacement : Char := Glyph.shown (.stray 0)

/-- Reads what stands between the quotes, of which the first `skip` bytes are already read. -/
def readBody : (skip : Nat) → Text → Option Text
  | _, [] => some []
  | skip + 1, _ :: rest => readBody skip rest
  | 0, b :: rest =>
    if b == Text.ascii '"' || b == Text.ascii '\n' then none
    else if b == Text.ascii '\\' then
      match rest with
      | [] => none
      | letter :: more => do
        let (bytes, taken) ← escape? letter more
        let tail ← readBody taken rest
        return bytes ++ tail
    else
      match Glyph.lead? b rest with
      | some (c, more) => (readBody more rest).map (String.utf8EncodeChar c ++ ·)
      | none => (readBody 0 rest).map (String.utf8EncodeChar replacement ++ ·)

end Quoted

namespace Text

/-- The text between double quotes, with escapes. -/
def quote (t : Text) : Text :=
  ascii '"' :: (t.glyphs.flatMap Quoted.writeGlyph ++ [ascii '"'])

/-- Reads a text between double quotes. -/
def unquote? (t : Text) : Option Text :=
  match t with
  | first :: rest =>
    if first == ascii '"' && rest.getLast? == some (ascii '"') then
      Quoted.readBody 0 rest.dropLast
    else none
  | [] => none

end Text

end ScriptSimplifier
