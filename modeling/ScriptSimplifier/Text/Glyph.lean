import ScriptSimplifier.Text.Basic

/-! # Characters of a byte string

Decoding UTF-8 splits a text into characters and stray bytes, those that are not part of a
well-formed character.  Nothing is lost: encoding the glyphs gives the text back. -/

namespace ScriptSimplifier

/-- A character of a text, or a byte that belongs to no character. -/
inductive Glyph where
  | char (c : Char)
  | stray (b : UInt8)
  deriving Repr, DecidableEq

namespace Glyph

/-- The bytes of a glyph. -/
def encode : Glyph → Text
  | .char c => String.utf8EncodeChar c
  | .stray b => [b]

/-- The character that is shown for a glyph: U+FFFD stands for a stray byte. -/
def shown : Glyph → Char
  | .char c => c
  | .stray _ => Char.ofNat 0xFFFD

/-- The low six bits of a continuation byte. -/
def continuation? (b : UInt8) : Option Nat :=
  if 0x80 ≤ b && b ≤ 0xBF then some (b.toNat - 0x80) else none

/-- The character with a code point, unless the code point is below `least`, a surrogate or too
large. -/
def scalar? (least code : Nat) : Option Char :=
  if least ≤ code ∧ (code < 0xD800 ∨ 0xDFFF < code) ∧ code ≤ 0x10FFFF then
    some (Char.ofNat code)
  else none

/-- The character that starts with `lead`, and how many of the following bytes it takes. -/
def lead? (lead : UInt8) (rest : Text) : Option (Char × Nat) :=
  if lead < 0x80 then some (Char.ofNat lead.toNat, 0)
  else if 0xC0 ≤ lead && lead < 0xE0 then
    match rest with
    | a :: _ => do
      let x ← continuation? a
      let c ← scalar? 0x80 ((lead.toNat - 0xC0) * 64 + x)
      return (c, 1)
    | _ => none
  else if 0xE0 ≤ lead && lead < 0xF0 then
    match rest with
    | a :: b :: _ => do
      let x ← continuation? a
      let y ← continuation? b
      let c ← scalar? 0x800 (((lead.toNat - 0xE0) * 64 + x) * 64 + y)
      return (c, 2)
    | _ => none
  else if 0xF0 ≤ lead && lead < 0xF8 then
    match rest with
    | a :: b :: d :: _ => do
      let x ← continuation? a
      let y ← continuation? b
      let z ← continuation? d
      let c ← scalar? 0x10000 ((((lead.toNat - 0xF0) * 64 + x) * 64 + y) * 64 + z)
      return (c, 3)
    | _ => none
  else none

/-- Decodes a text, of which the first `skip` bytes belong to a glyph already seen. -/
def decodeFrom : (skip : Nat) → Text → List Glyph
  | _, [] => []
  | skip + 1, _ :: rest => decodeFrom skip rest
  | 0, b :: rest =>
    match lead? b rest with
    | some (c, more) => .char c :: decodeFrom more rest
    | none => .stray b :: decodeFrom 0 rest

end Glyph

namespace Text

/-- The glyphs of a text. -/
def glyphs (t : Text) : List Glyph := Glyph.decodeFrom 0 t

/-- The bytes of a sequence of glyphs. -/
def ofGlyphs (glyphs : List Glyph) : Text := glyphs.flatMap Glyph.encode

/-- The characters of a text, U+FFFD for each stray byte. -/
def chars (t : Text) : List Char := t.glyphs.map Glyph.shown

/-- The bytes of a sequence of characters. -/
def ofChars (chars : List Char) : Text := chars.flatMap String.utf8EncodeChar

/-- The text as a string, with U+FFFD for each stray byte. -/
def display (t : Text) : String := String.ofList t.chars

end Text

end ScriptSimplifier
