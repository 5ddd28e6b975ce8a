import ScriptSimplifier.Rule.Journal

/-! # Rules given as data

A scripted rule is described by conditions on the place and an action.  It fires wherever all its
conditions hold, until it has fired as often as it may. -/

namespace ScriptSimplifier

/-- A node to be put in place, as it was described: nothing, a tree, or a text that could not be
read. -/
inductive Material where
  | tree (t : Tree)
  | unreadable (error : SExpression.SyntaxError)
  deriving Repr

namespace Material

/-- Adds the described node to the store. -/
def plant (m : Material) (s : Store) : Except Fault (Option Ref × Store) :=
  match m with
  | .tree t => .ok (s.plant t)
  | .unreadable error => .error (.unreadable error)

end Material

/-- What a scripted rule does at a place. -/
inductive Action where
  /-- Removes the element. -/
  | remove
  /-- Puts a node in its place. -/
  | replace (material : Material)
  /-- Puts the fragment of a value in its place. -/
  | constant (value : Result)
  /-- Removes a child. -/
  | removeChild (field : String)
  /-- Puts a node in the place of a child. -/
  | replaceChild (field : String) (material : Material)
  /-- Puts a child in the place of the node. -/
  | hoist (field : String)
  /-- Exchanges two children. -/
  | swap (first second : String)
  /-- Removes the items at positions of a list, in an order that keeps the positions. -/
  | removeAll (positions : List Int)
  /-- Removes items at positions of a list one after the other. -/
  | removeEach (positions : List Int)
  /-- Exchanges two items of a list, at the first two of the positions. -/
  | swapItems (positions : List Int)
  deriving Repr

/-- The conditions and the action of a rule. -/
structure Script where
  name : Text
  /-- The name of the kind that the node must have, or `List`. -/
  kind : Option Text := none
  /-- The source that the node must have. -/
  source : Option Text := none
  /-- The field that the place must be. -/
  field : Option String := none
  /-- Whether the place must be an item of a list. -/
  inList : Option Bool := none
  /-- How often the rule may fire; any number of times if this is not positive. -/
  times : Int := 0
  action : Action

namespace Action

/-- Puts two places' nodes into each other's place. -/
def exchange (s : Store) (a b : Cursor) : Edit :=
  .batch [.put a (b.node? s), .put b (a.node? s)]

/-- Adds a node and puts it at a place. -/
def putMaterial (place : Cursor) (w : Workspace) (m : Material) :
    Except Fault (Edit × Workspace) := do
  let (r, store) ← m.plant w.store
  return (.put place r, { w with store })

/-- The edit of an action at a place. -/
def edit (action : Action) (place : Cursor) (w : Workspace) : Except Fault (Edit × Workspace) :=
  let s := w.store
  match action with
  | .remove => .ok (.remove place, w)
  | .replace material => putMaterial place w material
  | .constant none => .error .notConstant
  | .constant (some v) =>
    let (r, w) := w.constant v
    .ok (.put place (some r), w)
  | .removeChild field => .ok (.remove (place.field s field), w)
  | .replaceChild field material => putMaterial (place.field s field) w material
  | .hoist field => .ok (.put place ((place.field s field).node? s), w)
  | .swap first second => .ok (exchange s (place.field s first) (place.field s second), w)
  | .removeAll positions => .ok (.removeAll s place positions, w)
  | .removeEach positions => .ok (.batch (positions.map fun i => .remove (place.index s i)), w)
  | .swapItems (i :: j :: _) => .ok (exchange s (place.index s i) (place.index s j), w)
  | .swapItems _ => .error .outOfRange

end Action

namespace Script

/-- Whether the node at a place has the source that is asked for. -/
def sourceMatches (script : Script) (s : Store) (place : Cursor) : Except Fault Bool :=
  match script.source, place.node? s with
  | none, _ => .ok true
  | some _, none => .ok false
  | some expected, some r =>
    match (s.tree (some r)).source? with
    | some source => .ok (source == expected)
    | none => .error .outOfRange

/-- Whether the element at a place is of the kind that is asked for. -/
def kindMatches (script : Script) (s : Store) (place : Cursor) : Bool :=
  script.kind.all fun kind =>
    if kind = Text.ofString "List" then (place.list? s).isSome
    else ((place.node? s).bind s.kind?).any (·.name == kind)

/-- Whether all conditions hold at a place. -/
def holds (script : Script) (s : Store) (place : Cursor) : Except Fault Bool := do
  if !script.kindMatches s place then return false
  if !(← script.sourceMatches s place) then return false
  return script.field.all (· == place.fieldName) && script.inList.all (· == place.inList)

/-- The scripted rule with a number in its pass. -/
def rule (script : Script) (number : Nat) : Rule Journal where
  name := script.name
  propose place w journal := do
    if 0 < script.times ∧ script.times ≤ journal.usesOf number then
      return .nothing w journal
    if !(← script.holds w.store place) then return .nothing w journal
    let (edit, w) ← script.action.edit place w
    return ⟨some edit, w, journal.countUse number⟩

end Script

end ScriptSimplifier
