import ScriptSimplifier.Text.Glyph

/-! # White space around a text

`isBlank` holds the characters with the Unicode property `White_Space`; numeric strings also allow
the byte order mark. -/

namespace ScriptSimplifier

/-- White space in the sense of Unicode. -/
def isBlank (c : Char) : Bool :=
  let n := c.toNat
  (0x9 ≤ n && n ≤ 0xD) || n == 0x20 || n == 0x85 || n == 0xA0 || n == 0x1680 ||
    (0x2000 ≤ n && n ≤ 0x200A) || n == 0x2028 || n == 0x2029 || n == 0x202F || n == 0x205F ||
    n == 0x3000

namespace Glyph

/-- A glyph that is a character of a class. -/
def isOf (p : Char → Bool) : Glyph → Bool
  | .char c => p c
  | .stray _ => false

end Glyph

namespace Text

/-- The text without the leading and trailing characters of a class. -/
def trimBy (p : Char → Bool) (t : Text) : Text :=
  let front := t.glyphs.dropWhile (Glyph.isOf p)
  ofGlyphs (front.reverse.dropWhile (Glyph.isOf p)).reverse

/-- The text without white space around it. -/
def trim (t : Text) : Text := t.trimBy isBlank

/-- The words of a text, that is what stands between white space. -/
def words (t : Text) : List Text :=
  let start : List Glyph × List Text := ([], [])
  let close (state : List Glyph × List Text) : List Text :=
    if state.1.isEmpty then state.2 else ofGlyphs state.1 :: state.2
  close (t.glyphs.foldr
    (fun g state =>
      if g.isOf isBlank then ([], close state) else (g :: state.1, state.2)) start)

end Text

end ScriptSimplifier
