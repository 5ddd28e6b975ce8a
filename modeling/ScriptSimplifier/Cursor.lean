import ScriptSimplifier.Store.Child

/-! # Places in a tree

A cursor is a place in a tree: an element together with the way from the root to it.  It remembers
the elements it passed, so after an edit it may name a place that does not exist any more.
`Cursor.refresh` finds out, and finds list items again that have moved. -/

namespace ScriptSimplifier

/-- The step from a parent to a child: a field of a node or a position in a list. -/
inductive Key where
  | field (name : String)
  | index (i : Int)
  deriving Repr, DecidableEq

/-- The text of a key. -/
def Key.shown : Key → Text
  | .field name => Text.ascii '.' :: Text.ofString name
  | .index i => Text.ascii '[' :: Text.ofInt i ++ [Text.ascii ']']

/-- A place in a tree and the element found there, if any. -/
inductive Cursor where
  | root (element : Option Ref)
  | step (parent : Cursor) (key : Key) (element : Option Ref)
  deriving Repr, DecidableEq

namespace Cursor

/-! ## Parts -/

/-- The element at a place. -/
def element : Cursor → Option Ref
  | .root e => e
  | .step _ _ e => e

/-- The place one step up. -/
def parent? : Cursor → Option Cursor
  | .root _ => none
  | .step parent _ _ => some parent

/-- The last step to a place. -/
def key? : Cursor → Option Key
  | .root _ => none
  | .step _ key _ => some key

/-- The field of the last step; empty if it is none. -/
def fieldName (c : Cursor) : String :=
  match c.key? with
  | some (.field name) => name
  | _ => ""

/-- The position of the last step; -1 if it is none. -/
def position (c : Cursor) : Int :=
  match c.key? with
  | some (.index i) => i
  | _ => -1

/-- Whether the last step goes into a list. -/
def inList (c : Cursor) : Bool :=
  match c.key? with
  | some (.index _) => true
  | _ => false

/-- The number of steps from the root. -/
def depth : Cursor → Nat
  | .root _ => 0
  | .step parent _ _ => parent.depth + 1

/-- The same place with another element. -/
def withElement (e : Option Ref) : Cursor → Cursor
  | .root _ => .root e
  | .step parent key _ => .step parent key e

/-- The node at a place. -/
def node? (s : Store) (c : Cursor) : Option Ref := c.element.filter fun r => !s.isList r

/-- The list at a place. -/
def list? (s : Store) (c : Cursor) : Option Ref := c.element.filter s.isList

/-- The nearest place at or above this one that is not a list; none if all are. -/
def nodePlace? (s : Store) : Cursor → Option Cursor
  | .root e => if e.any s.isList then none else some (.root e)
  | .step parent key e =>
    if e.any s.isList then parent.nodePlace? s else some (.step parent key e)

/-- The place of the node that holds this place, directly or through a list. -/
def owner? (s : Store) (c : Cursor) : Option Cursor := c.parent?.bind (·.nodePlace? s)

/-! ## Going down -/

/-- The element one step below another. -/
def elementBelow (s : Store) (e : Option Ref) (key : Key) : Option Ref :=
  match e, key with
  | some r, .field name => s.child r name
  | some r, .index i => (s.itemAt? r i).join
  | none, _ => none

/-- The place one step down.  A field or position that does not exist gives an empty place. -/
def child (s : Store) (c : Cursor) (key : Key) : Cursor :=
  .step c key (elementBelow s c.element key)

/-- The place of a field. -/
def field (s : Store) (c : Cursor) (name : String) : Cursor := c.child s (.field name)

/-- The place of a list item. -/
def index (s : Store) (c : Cursor) (i : Int) : Cursor := c.child s (.index i)

/-- The places one step down: the fields of a node in order, or the positions of a list. -/
def children (s : Store) (c : Cursor) : List Cursor :=
  match c.element with
  | none => []
  | some r =>
    match s.get r with
    | .node label _ => label.fields.map fun f => c.field s f.name
    | .list items => (List.range items.length).map fun i : Nat => c.index s i

/-! ## Refreshing -/

/-- Why a place cannot be refreshed. -/
inductive Stale where
  /-- An element on the way is no longer held by the one above it. -/
  | detached
  /-- A step into a list has a position below zero. -/
  | negativeIndex
  deriving Repr, DecidableEq

/-- Finds a list item again: at its position, or else at the first position that holds it. -/
def refreshItem (s : Store) (list item : Ref) (i : Int) : Except Stale Int :=
  if i < 0 then .error .negativeIndex
  else if s.itemAt? list i = some (some item) then .ok i
  else
    match s.indexOf? list (some item) with
    | some j => .ok j
    | none => .error .detached

/-- The place in the current state of the tree, if every element on the way is still held by the
one above it. -/
def refresh (s : Store) : Cursor → Except Stale Cursor
  | .root e => .ok (.root e)
  | .step parent key e => do
    let parent ← parent.refresh s
    match parent.element, key with
    | some r, .index i =>
      match e with
      | some item =>
        if s.isList r ∧ ¬ s.isList item then
          return .step parent (.index (← refreshItem s r item i)) e
        else .error .detached
      | none => .error .detached
    | some r, .field name =>
      if ¬ s.isList r ∧ s.child r name = e then return .step parent key e
      else .error .detached
    | none, _ => .error .detached

/-- The place in the current state of the tree, if it still exists.  A run asks for it only where no
item on the way has a position below zero, so that a place is missing only if it is detached. -/
def refresh? (s : Store) (c : Cursor) : Option Cursor := (c.refresh s).toOption

/-! ## Text -/

/-- What is shown for an element. -/
def describe (s : Store) : Option Ref → Text
  | none => "<nil>"
  | some r =>
    match s.get r with
    | .node label _ => label.kind.name
    | .list items => Text.ofString "List(" ++ Text.ofNat items.length ++ Text.ofString ")"

/-- The way from the root to a place. -/
def path (s : Store) : Cursor → Text
  | .root e => describe s e
  | .step parent key _ => parent.path s ++ key.shown

/-- The text of a place: the way to it and what is found there. -/
def shown (s : Store) (c : Cursor) : Text :=
  match c with
  | .root _ => c.path s
  | .step _ _ e => c.path s ++ Text.ascii '=' :: describe s e

end Cursor

end ScriptSimplifier
