import ScriptSimplifier.Difference.Readable
import ScriptSimplifier.Syntax.Source

/-! # Differences between the sources of two trees

The sources are shown as one text in which additions and removals are marked, by signs or by
colours. -/

namespace ScriptSimplifier

/-- How additions and removals are marked. -/
structure Marking where
  addedStart : Text
  addedEnd : Text
  removedStart : Text
  removedEnd : Text

/-- Marks by signs. -/
def Marking.signs : Marking := ⟨"\x7b+", "+\x7d", "[-", "-]"⟩

/-- Marks by terminal colours: green for additions and red for removals. -/
def Marking.colours : Marking := ⟨"\x1b[32m", "\x1b[0m", "\x1b[31m", "\x1b[0m"⟩

/-- The text of a piece. -/
def Marking.write (m : Marking) (p : Difference.Piece UInt8) : Text :=
  match p.side with
  | .both => p.content
  | .added => m.addedStart ++ p.content ++ m.addedEnd
  | .removed => m.removedStart ++ p.content ++ m.removedEnd

/-- The marked difference of two texts, and whether they differ; equal texts are shown as they
are. -/
def Marking.compare (m : Marking) (first second : Text) : Text × Bool :=
  if first = second then (first, false)
  else ((Difference.readable first second).flatMap m.write, true)

/-- The marked difference of the sources of two trees, and whether they differ. -/
def Tree.compareSources? (m : Marking) (first second : Tree) : Option (Text × Bool) := do
  let one ← first.source?
  let two ← second.source?
  return m.compare one two

end ScriptSimplifier
