import ScriptSimplifier.Cursor

/-! # Walks through a tree

A walk visits the places below a start in post-order, one at a time, so that several walks can be
interleaved with edits.  The children of a place are noted when the walk arrives there; edits after
that do not change which children it visits.  Empty places are left out. -/

namespace ScriptSimplifier

/-- A place that a walk has entered, with the children it has still to visit. -/
structure Stop where
  place : Cursor
  ahead : List Cursor
  deriving Repr

/-- The stops that a walk has entered and not left, the innermost first, and how many places it has
visited. -/
structure Walk where
  stops : List Stop
  count : Nat
  deriving Repr

/-- What happens when a walk goes on. -/
inductive Motion where
  /-- It enters a place. -/
  | entered (place : Cursor)
  /-- It passes an empty place. -/
  | passed
  /-- It leaves a place after all its children, and thereby visits it. -/
  | visited (place : Cursor)
  deriving Repr

namespace Walk

/-- Enters a place unless it is empty. -/
def enter (s : Store) (w : Walk) (place : Cursor) : Walk :=
  if place.element.isNone then w else { w with stops := ⟨place, place.children s⟩ :: w.stops }

/-- The walk through everything below a place, the place included. -/
def start (s : Store) (place : Cursor) : Walk := enter s ⟨[], 0⟩ place

/-- Nothing left to visit. -/
def isDone (w : Walk) : Bool := w.stops.isEmpty

/-- One motion of a walk; none if it is done. -/
def advance (s : Store) (w : Walk) : Option (Motion × Walk) :=
  match w.stops with
  | [] => none
  | ⟨place, next :: ahead⟩ :: outer =>
    let w := { w with stops := ⟨place, ahead⟩ :: outer }
    some (if next.element.isNone then .passed else .entered next, enter s w next)
  | ⟨place, []⟩ :: outer => some (.visited place, ⟨outer, w.count + 1⟩)

/-- Goes on until a place is visited, at most `fuel` motions. -/
def next (s : Store) : (fuel : Nat) → Walk → Option (Cursor × Walk)
  | 0, _ => none
  | fuel + 1, w =>
    match w.advance s with
    | none => none
    | some (.visited place, w) => some (place, w)
    | some (_, w) => next s fuel w

/-- All motions of a walk, at most `fuel` of them. -/
def motions (s : Store) : (fuel : Nat) → Walk → List Motion
  | 0, _ => []
  | fuel + 1, w =>
    match w.advance s with
    | none => []
    | some (motion, w) => motion :: motions s fuel w

end Walk

/-- The number of elements and of places for them. -/
def Store.extent (s : Store) : Nat :=
  s.cells.foldl (fun n c =>
    match c with
    | .node _ children => n + children.length + 1
    | .list items => n + items.length + 1) 1

/-- More motions than a walk through a tree can take between two visits: those ahead at its stops,
and those through every element once. -/
def Walk.reachBound (s : Store) (w : Walk) : Nat :=
  w.stops.foldl (fun n stop => n + stop.ahead.length + 1) (s.extent + 1)

/-! ## Whole walks -/

/-- The places of a whole walk, in the order in which it enters and in which it visits them. -/
structure Tour where
  entered : List Cursor
  visited : List Cursor
  deriving Repr

/-- The walk through everything below a place.  It makes two motions for each element and one for
each empty place. -/
def Walk.tour (s : Store) (place : Cursor) : Tour :=
  let motions := (start s place).motions s (2 * (s.tree place.element).size)
  let entered := motions.filterMap fun
    | .entered place => some place
    | _ => none
  let visited := motions.filterMap fun
    | .visited place => some place
    | _ => none
  ⟨if place.element.isNone then entered else place :: entered, visited⟩

end ScriptSimplifier
