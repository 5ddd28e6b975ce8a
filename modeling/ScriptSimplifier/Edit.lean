import ScriptSimplifier.Cursor
import ScriptSimplifier.Store.Pool
import ScriptSimplifier.Syntax.Source

/-! # Edits

An edit replaces or removes the element at a place, or is a batch of edits applied in order.
Applying an edit never changes a canonical fragment.  A batch that fails stops there, and what it
has done before stays done. -/

namespace ScriptSimplifier

/-- A change of a tree. -/
inductive Edit where
  /-- Puts the element of the target at the place of the target. -/
  | replace (target : Cursor)
  /-- Removes the element at the target: a list closes up, a field becomes empty. -/
  | remove (target : Cursor)
  /-- Edits to be applied in order. -/
  | batch (edits : List Edit)
  deriving Repr

/-- Why an edit is refused. -/
inductive EditError where
  | nothing (place : Text)
  | noParent (place : Text)
  | emptyParent (place : Text)
  | frozen (source : Text)
  | range (verb : String) (i : Int) (size : Nat)
  | inBatch (position : Nat) (error : EditError)
  deriving Repr, DecidableEq

namespace EditError

/-- The text of an error. -/
def message : EditError → Text
  | .nothing place => Text.ofString "cannot replace with nil at " ++ place
  | .noParent place => Text.ofString "location has no parent: " ++ place
  | .emptyParent place =>
    Text.ofString "location has no parent: parent of " ++ place ++ Text.ofString " is empty"
  | .frozen source => Text.ofString "cannot edit a canonical constant: " ++ source
  | .range verb i size =>
    Text.ofString "list index out of range: " ++ Text.ofString verb ++ Text.ofString " at " ++
      Text.ofInt i ++ Text.ofString " of " ++ Text.ofNat size
  | .inBatch position error =>
    Text.ofString "batch operation #" ++ Text.ofNat position ++ Text.ofString ": " ++
      error.message

/-- The error of the edit that failed, without the batches around it. -/
def cause : EditError → EditError
  | .inBatch _ error => error.cause
  | error => error

end EditError

/-- Why an edit did not go through: it was refused, or it was at fault itself. -/
inductive Failure where
  | refused (error : EditError)
  | fault (fault : ChildFault)
  deriving Repr, DecidableEq

namespace Edit

/-! ## Construction -/

/-- Puts a node at a place. -/
def put (place : Cursor) (node : Option Ref) : Edit := .replace (place.withElement node)

/-- Removes the items at positions of a list, each once and the last position first, so that no
removal moves an item that is still to be removed. -/
def removeAll (s : Store) (list : Cursor) (positions : List Int) : Edit :=
  let descending := (positions.mergeSort (fun a b => decide (b ≤ a))).eraseDups
  .batch (descending.map fun i => .remove (list.index s i))

/-- The edits of a batch. -/
def edits : Edit → List Edit
  | .batch edits => edits
  | _ => []

/-! ## Application -/

/-- The element that holds a place, if the place may be edited: it must have a parent, and the
node that owns it must not be a canonical fragment.  Without a pool nothing is canonical. -/
def editableParent (pool : Option Pool) (s : Store) (place : Cursor) : Except EditError Ref :=
  match place.parent? with
  | none => .error (.noParent (place.shown s))
  | some parent =>
    match parent.element with
    | none => .error (.emptyParent (place.shown s))
    | some holder =>
      let owner := (place.owner? s).bind (·.node? s)
      if pool.any (·.isConstant owner) then .error (.frozen (((s.tree owner).source?).getD []))
      else .ok holder

/-- Puts an element at a place. -/
def applyReplace (pool : Option Pool) (s : Store) (target : Cursor) : Except Failure Store := do
  let fresh := target.node? s
  if fresh.isNone then throw (.refused (.nothing (target.shown s)))
  let holder ← (editableParent pool s target).mapError .refused
  if s.isList holder then
    match s.setItem? holder target.position fresh with
    | some s => return s
    | none =>
      throw (.refused (.range "replace" target.position (s.itemsOf (some holder)).length))
  else (s.setChild holder target.fieldName (.of fresh)).mapError .fault

/-- Removes the element at a place. -/
def applyRemove (pool : Option Pool) (s : Store) (target : Cursor) : Except Failure Store := do
  let holder ← (editableParent pool s target).mapError .refused
  if s.isList holder then
    match s.removeItem? holder target.position with
    | some s => return s
    | none =>
      throw (.refused (.range "remove" target.position (s.itemsOf (some holder)).length))
  else (s.setChild holder target.fieldName .nothing).mapError .fault

/-- Puts the position in a batch before an error. -/
def failIn (position : Nat) : Failure → Failure
  | .refused error => .refused (.inBatch position error)
  | .fault fault => .fault fault

mutual

/-- Applies an edit.  The store holds what was done, also if the edit failed. -/
def apply (pool : Option Pool) (s : Store) : Edit → Store × Option Failure
  | .replace target =>
    match applyReplace pool s target with
    | .ok s => (s, none)
    | .error failure => (s, some failure)
  | .remove target =>
    match applyRemove pool s target with
    | .ok s => (s, none)
    | .error failure => (s, some failure)
  | .batch edits => applyAll pool s 0 edits

/-- Applies edits in order, the first of which has a position in its batch. -/
def applyAll (pool : Option Pool) (s : Store) (position : Nat) :
    List Edit → Store × Option Failure
  | [] => (s, none)
  | edit :: rest =>
    match apply pool s edit with
    | (s, none) => applyAll pool s (position + 1) rest
    | (s, some failure) => (s, some (failIn position failure))

end

mutual

/-- The places that must be visited again after an edit, in the order in which it touched them. -/
def invalidated : Edit → List Cursor
  | .replace target => target :: target.parent?.toList
  | .remove target => target.parent?.toList
  | .batch edits => invalidatedAll edits

/-- The places that must be visited again after edits. -/
def invalidatedAll : List Edit → List Cursor
  | [] => []
  | edit :: rest => edit.invalidated ++ invalidatedAll rest

end

/-- The text of an edit. -/
def shown (s : Store) : Edit → Text
  | .replace target => Text.ofString "Replace(" ++ target.shown s ++ Text.ofString ")"
  | .remove target => Text.ofString "Remove(" ++ target.shown s ++ Text.ofString ")"
  | .batch edits =>
    Text.ofString "Batch(" ++ Text.ofNat edits.length ++ Text.ofString " operations)"

end Edit

end ScriptSimplifier
