import ScriptSimplifier.Text.Basic

/-! # Styles in printed text

A text may ask to be printed in a style: a tag such as `<red>` opens a style and `</>` closes it,
and a terminal code such as ESC `[31m` switches a colour.  The console prints without styles, so it
leaves the tags out.  A text that closes no style has no tags, and what looks like one stays. -/

namespace ScriptSimplifier

namespace Styling

/-- A text without its marks, where `mark t` is the length of the mark that `t` begins with, zero if
there is none.  Marks are found from the left and do not overlap; the first `skip` bytes are the
rest of a mark. -/
def leaveOut (mark : Text → Nat) : (skip : Nat) → Text → Text
  | _, [] => []
  | skip + 1, _ :: rest => leaveOut mark skip rest
  | 0, b :: rest =>
    match mark (b :: rest) with
    | 0 => b :: leaveOut mark 0 rest
    | length + 1 => leaveOut mark length rest

/-- The length of a mark at the start of a text: it begins with `opening`, goes on with bytes of a
class, of which there are at least `least`, and ends with the byte `ending`, which is not of the
class. -/
def markLength (opening : Text) (inside : UInt8 → Bool) (least : Nat) (ending : UInt8)
    (t : Text) : Nat :=
  match Text.dropStart? opening t with
  | none => 0
  | some rest =>
    let count := (rest.takeWhile inside).length
    if least ≤ count && rest[count]? == some ending then opening.length + count + 1 else 0

/-! ## Tags -/

/-- A byte of the description of a style. -/
def isTagByte (b : UInt8) : Bool :=
  Text.isLetter b || (Text.ofString "_=,;").contains b

/-- The length of the tag that a text begins with. -/
def tagLength (t : Text) : Nat :=
  max (markLength "<" isTagByte 0 (Text.ascii '>') t)
    (markLength "</" isTagByte 0 (Text.ascii '>') t)

/-- The tag that closes a style. -/
def closing : Text := "</>"

/-- Whether a text closes a style anywhere. -/
def closesStyle : Text → Bool
  | [] => false
  | b :: rest => closing.isPrefixOf (b :: rest) || closesStyle rest

/-- A text without the tags that it shows at first sight. -/
def withoutTags (t : Text) : Text := if closesStyle t then leaveOut tagLength 0 t else t

/-- A text without tags.  Where one is left out the bytes around it may join to another, so tags are
left out anew as long as a style is closed. -/
def plain (t : Text) : Text := go t.length t
where
  /-- Each time makes the text shorter, so as many `times` as it has bytes are enough. -/
  go : (times : Nat) → Text → Text
    | 0, t => t
    | times + 1, t => if closesStyle t then go times (withoutTags t) else t

/-! ## Terminal codes -/

/-- A byte of the number of a terminal code. -/
def isCodeByte (b : UInt8) : Bool := Text.isDigit b || (Text.ofString ";?").contains b

/-- The length of the terminal code that a text begins with. -/
def codeLength (t : Text) : Nat := markLength "\x1b[" isCodeByte 1 (Text.ascii 'm') t

/-- A text without its terminal codes. -/
def withoutCodes (t : Text) : Text := leaveOut codeLength 0 t

/-- A piece of a larger print, which is written in a style of its own: it loses its tags and then
its terminal codes. -/
def unstyled (t : Text) : Text := withoutCodes (withoutTags t)

end Styling

end ScriptSimplifier
