import ScriptSimplifier.Edit

/-! # Simplifying single statements

A block with at most one statement is replaced by that statement, and an if statement whose
branches end alike becomes a conditional expression. -/

namespace ScriptSimplifier

namespace Statements

/-- Replaces a block statement with one statement by that statement, and an empty one by the empty
statement. -/
def flattenBlock (place : Cursor) (w : Workspace) : Option (Edit × Workspace) := do
  let r ← place.node? w.store
  match w.store.get r with
  | .node .blockStatement [some block] =>
    match w.store.itemsOf (w.store.child block "statements") with
    | [] =>
      let (empty, w) := w.add .emptyStatement []
      some (.put place (some empty), w)
    | [statement] => some (.put place statement, w)
    | _ => none
  | _ => none

/-- An expression that may be absent, then standing for `undefined`. -/
def orUndefined (w : Workspace) (e : Option Ref) : Option Ref × Workspace :=
  match e with
  | some r => (some r, w)
  | none =>
    let (r, w) := w.constant .undefined
    (some r, w)

/-- Puts a statement with a conditional expression at a place. -/
def putConditional (place : Cursor) (w : Workspace) (label : Label)
    (test consequent alternate : Option Ref) : Edit × Workspace :=
  let (conditional, w) := w.add .conditionalExpression [test, consequent, alternate]
  let (statement, w) := w.add label [some conditional]
  (.put place (some statement), w)

/-- Replaces an if statement by a conditional expression if both branches are returns, both are
throws or both are expression statements.  A return without expression returns `undefined`, but
two of them are left alone. -/
def lowerIf (place : Cursor) (w : Workspace) : Option (Edit × Workspace) := do
  let r ← place.node? w.store
  match w.store.get r with
  | .node .ifStatement [test, some consequent, some alternate] =>
    match w.store.get consequent, w.store.get alternate with
    | .node .returnStatement [c], .node .returnStatement [a] =>
      if c.isNone ∧ a.isNone then none
      else
        let (c, w) := orUndefined w c
        let (a, w) := orUndefined w a
        some (putConditional place w .returnStatement test c a)
    | .node .throwStatement [c], .node .throwStatement [a] =>
      some (putConditional place w .throwStatement test c a)
    | .node .expressionStatement [c], .node .expressionStatement [a] =>
      some (putConditional place w .expressionStatement test c a)
    | _, _ => none
  | _ => none

end Statements

end ScriptSimplifier
