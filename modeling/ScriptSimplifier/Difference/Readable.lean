import ScriptSimplifier.Difference.Search
import ScriptSimplifier.Text.Glyph

/-! # Readable differences

A difference is made readable by giving up shared pieces that are not longer than the edits around
them, by moving edits to word boundaries, and by showing a shared middle where a removal and an
addition overlap. -/

namespace ScriptSimplifier

namespace Difference

/-! ## Giving up short shared pieces -/

/-- The progress of looking for short shared pieces. -/
structure Survey where
  /-- The pieces before the current position, in reverse order. -/
  past : List (Piece Char)
  /-- The positions of shared pieces that are still considered, the last one first. -/
  marks : List Nat
  /-- The length of the last shared piece, zero if it is not considered. -/
  shared : Nat
  /-- Characters added and removed before the last shared piece. -/
  addedBefore : Nat
  removedBefore : Nat
  /-- Characters added and removed after the last shared piece. -/
  addedAfter : Nat
  removedAfter : Nat

/-- Nothing surveyed, after the given pieces. -/
def Survey.fresh (past : List (Piece Char)) (marks : List Nat) : Survey :=
  ⟨past, marks, 0, 0, 0, 0, 0⟩

/-- Moves past one piece. -/
def Survey.pass (s : Survey) (p : Piece Char) : Survey :=
  let past := p :: s.past
  match p.side with
  | .both =>
    ⟨past, s.past.length :: s.marks, p.content.length, s.addedAfter, s.removedAfter, 0, 0⟩
  | .added => { s with past, addedAfter := s.addedAfter + p.content.length }
  | .removed => { s with past, removedAfter := s.removedAfter + p.content.length }

/-- Whether the last shared piece is not longer than the edits on either side. -/
def Survey.isShort (s : Survey) : Bool :=
  0 < s.shared && s.shared ≤ max s.addedBefore s.removedBefore &&
    s.shared ≤ max s.addedAfter s.removedAfter

/-- Turns the shared piece at a position into a removal and an addition. -/
def giveUp (position : Nat) (pieces : List (Piece Char)) : List (Piece Char) :=
  let content := ((pieces[position]?).map (·.content)).getD []
  pieces.take position ++ ⟨.removed, content⟩ :: ⟨.added, content⟩ :: pieces.drop (position + 1)

/-- Gives up short shared pieces.  After each, the search resumes after the last shared piece that
is still marked.  The flag says whether any piece was given up. -/
def giveUpShort : (fuel : Nat) → Survey → List (Piece Char) → Bool × List (Piece Char)
  | 0, s, rest => (false, s.past.reverse ++ rest)
  | _, s, [] => (false, s.past.reverse)
  | fuel + 1, s, p :: rest =>
    let next := s.pass p
    match p.side, next.isShort, next.marks with
    | .both, _, _ => giveUpShort fuel next rest
    | _, true, position :: marks =>
      let pieces := giveUp position (next.past.reverse ++ rest)
      let marks := marks.tail
      let resume := (marks.head?.map (· + 1)).getD 0
      let fresh := Survey.fresh (pieces.take resume).reverse marks
      (true, (giveUpShort fuel fresh (pieces.drop resume)).2)
    | _, _, _ => giveUpShort fuel next rest

/-! ## Moving edits to boundaries -/

/-- White space in a text without line structure. -/
def isGap (c : Char) : Bool :=
  c == ' ' || c == '\t' || c == '\n' || c == '\r' || c.toNat == 0x0C

/-- A letter or digit of ASCII. -/
def isWordChar (c : Char) : Bool := c.isAlphanum

/-- A text that ends with an empty line. -/
def endsBlank (t : Text) : Bool :=
  (Text.ofString "\n\n").isSuffixOf t || (Text.ofString "\n\r\n").isSuffixOf t

/-- How good a boundary between two texts is: the end of a text is best, then empty lines, line
ends, ends of sentences, white space, and other characters that are not alphanumeric. -/
def boundary (one two : Text) : Nat :=
  match one.chars.getLast?, two.chars.head? with
  | some c, some d =>
    let gapC := isGap c
    let gapD := isGap d
    let lineC := c == '\r' || c == '\n'
    let lineD := d == '\r' || d == '\n'
    if (lineC && endsBlank one) || (lineD && endsBlank two) then 5
    else if lineC || lineD then 4
    else if !isWordChar c && !gapC && gapD then 3
    else if gapC || gapD then 2
    else if !isWordChar c || !isWordChar d then 1
    else 0
  | _, _ => 6

/-- An edit between two shared texts. -/
structure Slot where
  left : Text
  edit : Text
  right : Text

/-- How good both boundaries of an edit are. -/
def Slot.score (s : Slot) : Nat := boundary s.left s.edit + boundary s.edit s.right

/-- The edit moved right by one character, if that leaves the texts unchanged. -/
def Slot.moveRight? (s : Slot) : Option Slot :=
  match s.edit.glyphs with
  | [] => none
  | g :: _ =>
    let bytes := g.encode
    if bytes.isPrefixOf s.right && !s.right.isEmpty then
      some ⟨s.left ++ bytes, s.edit.drop bytes.length ++ bytes, s.right.drop bytes.length⟩
    else none

/-- The best slot among this one and those to its right; the last of equally good ones. -/
def Slot.bestRight : (fuel : Nat) → (best current : Slot) → Slot
  | 0, best, _ => best
  | fuel + 1, best, current =>
    match current.moveRight? with
    | none => best
    | some next => bestRight fuel (if best.score ≤ next.score then next else best) next

/-- The edit moved left by as many bytes as there are characters at the end of both the left text
and the edit. -/
def Slot.moveLeft (s : Slot) : Slot :=
  let count := sharedEnd s.left.chars s.edit.chars
  let moved := takeEnd count s.edit
  ⟨dropEnd count s.left, moved ++ dropEnd count s.edit, moved ++ s.right⟩

/-- The best place of an edit between two shared texts. -/
def Slot.best (s : Slot) : Slot :=
  let start := s.moveLeft
  bestRight (start.right.length + 1) start start

/-- Moves single edits between shared pieces to better boundaries. -/
def alignFor : (fuel : Nat) → List (Piece UInt8) → List (Piece UInt8)
  | 0, pieces => pieces
  | fuel + 1, left :: edit :: right :: rest =>
    if left.side = .both ∧ right.side = .both then
      let slot := Slot.best ⟨left.content, edit.content, right.content⟩
      if slot.left = left.content then left :: alignFor fuel (edit :: right :: rest)
      else
        let moved : Piece UInt8 := ⟨edit.side, slot.edit⟩
        if slot.right.isEmpty then
          let opening := if slot.left.isEmpty then [] else [⟨.both, slot.left⟩]
          alignFor fuel (opening ++ moved :: rest)
        else
          let later := alignFor fuel (moved :: ⟨.both, slot.right⟩ :: rest)
          if slot.left.isEmpty then later else ⟨.both, slot.left⟩ :: later
    else left :: alignFor fuel (edit :: right :: rest)
  | _, pieces => pieces

/-- Moves single edits to better boundaries. -/
def align (pieces : List (Piece UInt8)) : List (Piece UInt8) := alignFor pieces.length pieces

/-! ## Overlaps -/

/-- The longest end of one text that starts another. -/
def overlap (one two : Text) : Nat :=
  let sizes := (List.range (min one.length two.length + 1)).reverse
  (sizes.find? fun n => takeEnd n one == two.take n).getD 0

/-- Shows what a removal and the following addition share at facing ends, if it is at least half
as long as one of them. -/
def showOverlaps : List (Piece UInt8) → List (Piece UInt8)
  | ⟨.removed, removed⟩ :: ⟨.added, added⟩ :: rest =>
    let inner := overlap removed added
    let outer := overlap added removed
    let isLong (n : Nat) : Bool :=
      (Text.glyphs removed).length ≤ 2 * n || (Text.glyphs added).length ≤ 2 * n
    if outer ≤ inner then
      if isLong inner then
        ⟨.removed, dropEnd inner removed⟩ :: ⟨.both, added.take inner⟩ ::
          ⟨.added, added.drop inner⟩ :: showOverlaps rest
      else ⟨.removed, removed⟩ :: ⟨.added, added⟩ :: showOverlaps rest
    else if isLong outer then
      ⟨.added, dropEnd outer added⟩ :: ⟨.both, removed.take outer⟩ ::
        ⟨.removed, removed.drop outer⟩ :: showOverlaps rest
    else ⟨.removed, removed⟩ :: ⟨.added, added⟩ :: showOverlaps rest
  | p :: rest => p :: showOverlaps rest
  | [] => []

/-! ## The whole -/

/-- A readable difference of two texts. -/
def readable (first second : Text) : List (Piece UInt8) :=
  let found := search first.chars second.chars
  let count := found.length + 1
  let (given, pieces) := giveUpShort (4 * count * count) (.fresh [] []) found
  let tidied := if given then tidy pieces else pieces
  showOverlaps (align (tidied.map fun p => ⟨p.side, Text.ofChars p.content⟩))

end Difference

end ScriptSimplifier
