import ScriptSimplifier.Difference.Piece

/-! # Tidying a difference

Tidying joins neighbouring pieces of one side, moves what a removal and the following addition
share into the pieces around them, and shifts an edit sideways when that joins two shared
pieces. -/

namespace ScriptSimplifier

namespace Difference

variable {α : Type} [DecidableEq α]

/-! ## Joining -/

/-- The edits since the last shared piece. -/
structure Edits (α : Type) where
  removals : Nat
  additions : Nat
  removed : List α
  added : List α

/-- No edits. -/
def Edits.none : Edits α := ⟨0, 0, [], []⟩

/-- The edits as pieces, a removal before an addition. -/
def Edits.pieces (e : Edits α) : List (Piece α) :=
  (if e.removals = 0 then [] else [⟨.removed, e.removed⟩]) ++
    (if e.additions = 0 then [] else [⟨.added, e.added⟩])

/-- Appends to the last shared piece; the pieces are in reverse order. -/
def extendShared (content : List α) : List (Piece α) → List (Piece α)
  | ⟨.both, earlier⟩ :: rest => ⟨.both, earlier ++ content⟩ :: rest
  | pieces => ⟨.both, content⟩ :: pieces

/-- Adds edits and the shared piece after them to pieces in reverse order. -/
def close (done : List (Piece α)) (e : Edits α) (shared : List α) : List (Piece α) :=
  if e.removals + e.additions ≤ 1 then
    if e.removals + e.additions = 0 then
      match done with
      | ⟨.both, earlier⟩ :: rest => ⟨.both, earlier ++ shared⟩ :: rest
      | done => ⟨.both, shared⟩ :: done
    else ⟨.both, shared⟩ :: (e.pieces.reverse ++ done)
  else if e.removals = 0 ∨ e.additions = 0 then ⟨.both, shared⟩ :: (e.pieces.reverse ++ done)
  else
    let start := sharedStart e.added e.removed
    let done := if start = 0 then done else extendShared (e.added.take start) done
    let added := e.added.drop start
    let removed := e.removed.drop start
    let tail := sharedEnd added removed
    let trimmed : Edits α := ⟨e.removals, e.additions, dropEnd tail removed, dropEnd tail added⟩
    ⟨.both, takeEnd tail added ++ shared⟩ :: (trimmed.pieces.reverse ++ done)

/-- Joins pieces; `done` holds the finished ones in reverse order.  At the end the edits are
followed by an empty shared piece. -/
def joinFrom (done : List (Piece α)) (e : Edits α) : List (Piece α) → List (Piece α)
  | [] => (close done e []).reverse
  | ⟨.both, shared⟩ :: rest => joinFrom (close done e shared) .none rest
  | ⟨.removed, content⟩ :: rest =>
    joinFrom done { e with removals := e.removals + 1, removed := e.removed ++ content } rest
  | ⟨.added, content⟩ :: rest =>
    joinFrom done { e with additions := e.additions + 1, added := e.added ++ content } rest

/-- Joins neighbouring pieces. -/
def join (pieces : List (Piece α)) : List (Piece α) :=
  let joined := joinFrom [] .none pieces
  if joined.getLast?.any (·.content.isEmpty) then joined.dropLast else joined

/-! ## Shifting -/

/-- Shifts single edits between shared pieces over one of them.  The flag says whether any edit was
shifted. -/
def shiftFrom (left : Piece α) : List (Piece α) → Bool × List (Piece α)
  | edit :: right :: rest =>
    if left.side = .both ∧ right.side = .both then
      if left.content.isSuffixOf edit.content then
        let moved := left.content ++ dropEnd left.content.length edit.content
        let later := shiftFrom ⟨.both, left.content ++ right.content⟩ rest
        (true, ⟨edit.side, moved⟩ :: later.2)
      else if right.content.isPrefixOf edit.content then
        let moved := edit.content.drop right.content.length ++ right.content
        let later := shiftFrom ⟨edit.side, moved⟩ rest
        (true, ⟨.both, left.content ++ right.content⟩ :: later.2)
      else
        let later := shiftFrom edit (right :: rest)
        (later.1, left :: later.2)
    else
      let later := shiftFrom edit (right :: rest)
      (later.1, left :: later.2)
  | rest => (false, left :: rest)

/-- Shifts single edits. -/
def shift : List (Piece α) → Bool × List (Piece α)
  | [] => (false, [])
  | first :: rest => shiftFrom first rest

/-- Joins and shifts, at most `rounds` times, until nothing is shifted any more. -/
def tidyFor : (rounds : Nat) → List (Piece α) → List (Piece α)
  | 0, pieces => pieces
  | rounds + 1, pieces =>
    match shift (join pieces) with
    | (true, shifted) => tidyFor rounds shifted
    | (false, same) => same

/-- Tidies a difference.  The number of rounds exceeds what any difference of this size needs. -/
def tidy (pieces : List (Piece α)) : List (Piece α) :=
  tidyFor (pieces.foldl (fun n p => n + p.content.length + 1) 2) pieces

end Difference

end ScriptSimplifier
