import ScriptSimplifier.Edit

/-! # Simplifying statement lists

Three simplifications of the list in a field: runs of expression statements become one, an
expression statement joins the return or throw behind it, and what follows a jump is dropped. -/

namespace ScriptSimplifier

namespace Sequences

/-- The items of a list that stands in a list field of a node. -/
def listField? (s : Store) (place : Cursor) : Option (List (Option Ref)) := do
  let list ← place.list? s
  let parent ← place.parent?
  let owner ← parent.node? s
  let kind ← s.kind? owner
  if kind.isListField place.fieldName then s.items? list else none

/-! ## Comma expressions -/

/-- The comma operator. -/
def comma : Text := ","

/-- The expressions that a comma expression joins, from left to right, down to a depth. -/
def leaves (s : Store) : (depth : Nat) → Option Ref → List (Option Ref)
  | 0, e => [e]
  | depth + 1, e =>
    match e.map s.get with
    | some (.node (.binaryExpression operator) [left, right]) =>
      if operator = comma then leaves s depth left ++ leaves s depth right else [e]
    | _ => [e]

/-- The leaves of an expression, however deep. -/
def leavesOf (s : Store) (e : Option Ref) : List (Option Ref) := leaves s (s.cells.size + 1) e

/-- Joins two expressions by commas; the leaves of the second one are appended one by one, so the
result nests to the left. -/
def join (w : Workspace) (left right : Option Ref) : Option Ref × Workspace :=
  (leavesOf w.store right).foldl
    (fun (joined, w) leaf =>
      let (r, w) := w.add (.binaryExpression comma) [joined, leaf]
      (some r, w))
    (left, w)

/-- Joins a first expression with those after it. -/
def joinAll (w : Workspace) (first : Option Ref) (others : List (Option Ref)) :
    Option Ref × Workspace :=
  others.foldl (fun (joined, w) e => join w joined e) (first, w)

/-! ## Runs of expression statements -/

/-- The expression of an expression statement. -/
def statementExpression? (s : Store) (item : Option Ref) : Option (Option Ref) :=
  match item.map s.get with
  | some (.node .expressionStatement [e]) => some e
  | _ => none

/-- Neighbouring expression statements: the position of the first and their expressions. -/
structure Run where
  start : Nat
  expressions : List (Option Ref)
  deriving Repr

/-- The maximal runs of expression statements in items, the first of which has a position. -/
def runsFrom (s : Store) : (position : Nat) → List (Option Ref) → List Run
  | _, [] => []
  | position, item :: rest =>
    let later := runsFrom s (position + 1) rest
    match statementExpression? s item, later with
    | none, _ => later
    | some e, run :: more =>
      if run.start = position + 1 then ⟨position, e :: run.expressions⟩ :: more
      else ⟨position, [e]⟩ :: later
    | some e, [] => [⟨position, [e]⟩]

/-- The positions of a run after its first. -/
def Run.absorbed (run : Run) : List Int :=
  (List.range (run.expressions.length - 1)).map fun i : Nat => ((run.start + 1 + i : Nat) : Int)

/-- The edit that puts one expression statement in place of the first of a run. -/
def Run.fuse (run : Run) (place : Cursor) (w : Workspace) : Edit × Workspace :=
  let (e, w) := joinAll w (run.expressions.head?.join) run.expressions.tail
  let (statement, w) := w.add .expressionStatement [e]
  (.put (place.index w.store run.start) (some statement), w)

/-- Replaces every run of two or more expression statements by a single one. -/
def fuseRuns (place : Cursor) (w : Workspace) : Option (Edit × Workspace) := do
  let items ← listField? w.store place
  let runs := (runsFrom w.store 0 items).filter fun run => 2 ≤ run.expressions.length
  if runs.isEmpty then none
  else
    let (edits, w) := runs.foldl
      (fun (edits, w) run =>
        let (edit, w) := run.fuse place w
        (edits ++ [edit], w))
      (([] : List Edit), w)
    let absorbed := runs.flatMap Run.absorbed
    some (.batch (edits ++ [.removeAll w.store place absorbed]), w)

/-! ## Unreachable statements -/

/-- A statement after which the rest of its list is not reached. -/
def isJump (s : Store) (item : Option Ref) : Bool :=
  match item.bind s.kind? with
  | some .returnStatement | some .throwStatement | some .breakStatement
  | some .continueStatement => true
  | _ => false

/-- Removes the statements after the first jump of a list. -/
def dropUnreachable (place : Cursor) (w : Workspace) : Option (Edit × Workspace) := do
  let items ← listField? w.store place
  let jump ← items.findIdx? (isJump w.store)
  if jump + 1 = items.length then none
  else
    let behind := (List.range (items.length - (jump + 1))).map
      fun i : Nat => ((jump + 1 + i : Nat) : Int)
    some (.removeAll w.store place behind, w)

/-! ## Completions -/

/-- The label and expression of a return or throw; a return without expression does not count. -/
def completion? (s : Store) (item : Option Ref) : Option (Label × Option Ref) :=
  match item.map s.get with
  | some (.node .returnStatement [some e]) => some (.returnStatement, some e)
  | some (.node .throwStatement [e]) => some (.throwStatement, e)
  | _ => none

/-- An expression statement and the completion behind it. -/
structure Pair where
  /-- The position of the expression statement. -/
  position : Nat
  first : Option Ref
  label : Label
  second : Option Ref

/-- The first expression statement with a completion directly behind it, in items of which the
first has a position. -/
def pairFrom? (s : Store) : (position : Nat) → List (Option Ref) → Option Pair
  | position, item :: next :: rest =>
    match statementExpression? s item, completion? s next with
    | some first, some (label, second) => some ⟨position, first, label, second⟩
    | _, _ => pairFrom? s (position + 1) (next :: rest)
  | _, _ => none

/-- Joins an expression statement with the return or throw directly behind it. -/
def fuseCompletion (place : Cursor) (w : Workspace) : Option (Edit × Workspace) := do
  let items ← listField? w.store place
  let pair ← pairFrom? w.store 0 items
  let (e, w) := join w pair.first pair.second
  let (statement, w) := w.add pair.label [e]
  let here := place.index w.store pair.position
  let behind := place.index w.store (pair.position + 1)
  some (.batch [.put here (some statement), .remove behind], w)

end Sequences

end ScriptSimplifier
