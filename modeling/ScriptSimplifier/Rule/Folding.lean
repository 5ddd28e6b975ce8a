import ScriptSimplifier.Edit
import ScriptSimplifier.Value.Operator

/-! # Folding constants

An operation on operands with known values is replaced by the canonical fragment of its value, and
a conditional expression with a known test by the branch that the test selects.  Canonical
fragments are never folded again. -/

namespace ScriptSimplifier

namespace Folding

/-- Puts the canonical fragment of a value at a place. -/
def putConstant (place : Cursor) (w : Workspace) (v : Value) : Edit × Workspace :=
  let (r, w) := w.constant v
  (.put place (some r), w)

/-- Folds a unary operation. -/
def foldUnary (place : Cursor) (w : Workspace) (operator : Text) (operand : Option Ref) :
    Option (Edit × Workspace) := do
  let v ← w.valueOf? operand
  let result ← evalUnary? operator v
  some (putConstant place w result)

/-- Folds a binary operation. -/
def foldBinary (place : Cursor) (w : Workspace) (operator : Text) (left right : Option Ref) :
    Option (Edit × Workspace) := do
  let l ← w.valueOf? left
  let r ← w.valueOf? right
  let result ← evalBinary? operator l r
  some (putConstant place w result)

/-- Folds a unary or binary operation on known values. -/
def foldOperation (place : Cursor) (w : Workspace) : Option (Edit × Workspace) := do
  let r ← place.node? w.store
  if w.pool.isConstant (some r) then none
  else
    match w.store.get r with
    | .node (.binaryExpression operator) [left, right] => foldBinary place w operator left right
    | .node (.unaryExpression operator) [operand] => foldUnary place w operator operand
    | _ => none

/-- Replaces a conditional expression with a known test by the branch that is taken; folds unary
operations too. -/
def foldConditional (place : Cursor) (w : Workspace) : Option (Edit × Workspace) := do
  let r ← place.node? w.store
  match w.store.get r with
  | .node .conditionalExpression [test, consequent, alternate] =>
    let v ← w.valueOf? test
    some (.put place (if v.toBoolean then consequent else alternate), w)
  | .node (.unaryExpression operator) [operand] =>
    if w.pool.isConstant (some r) then none else foldUnary place w operator operand
  | _ => none

end Folding

end ScriptSimplifier
