import ScriptSimplifier.Console.Styling

/-! # Notices

What the console has to say is written beside a heading, as a column of lines. -/

namespace ScriptSimplifier

/-- A kind of notice, known by its heading. -/
structure Notice where
  heading : Text

namespace Notice

/-- Plain information. -/
def info : Notice := ⟨"   >>  "⟩

/-- The report of an error. -/
def error : Notice := ⟨"   Error  "⟩

/-- What stands before the second and each later line. -/
def margin (n : Notice) : Text := List.replicate n.heading.length (Text.ascii ' ')

/-- A text without the line feeds at its end. -/
def body (t : Text) : Text := (t.reverse.dropWhile (· == Text.ascii '\n')).reverse

/-- The notice of a text, up to its last line feed.  However many line feeds end the text, they
make one empty line.  Neither the lines nor the whole carry a style. -/
def write (n : Notice) (t : Text) : Text :=
  let t := Styling.withoutTags t
  let column := Text.join (Text.ascii '\n' :: n.margin) ((body t).lines.map Styling.unstyled)
  let gap := if (body t).length < t.length then Text.ofString "\n" else []
  Styling.plain (n.heading ++ column ++ gap ++ Text.ofString "\n")

end Notice

end ScriptSimplifier
