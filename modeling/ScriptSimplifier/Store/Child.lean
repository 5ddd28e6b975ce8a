import ScriptSimplifier.Store.Basic

/-! # Changing a child

`Store.setChild` writes an element under a name of a node, as the kind of the node does it.  It
refuses a name that the kind does not know and an element that does not pass the conversion, and
then changes nothing. -/

namespace ScriptSimplifier

/-- What is written under a name: nothing, the nil pointer to a list, or an element.  The nil
pointer to a list is not the absence of a list, and no member can hold it. -/
inductive Element where
  | nothing
  | nilList
  | ref (r : Ref)
  deriving Repr, DecidableEq

/-- An element that may be absent. -/
def Element.of : Option Ref → Element
  | none => .nothing
  | some r => .ref r

instance : Coe (Option Ref) Element := ⟨Element.of⟩

/-- Why an element cannot be written under a name. -/
inductive ChildFault where
  | noField (kind : Kind) (name : String)
  | cannotHold (kind : Kind) (name : String) (typeName : Text)
  | needsBlock
  | needsFunctionBody
  deriving Repr, DecidableEq

/-- The text of a fault. -/
def ChildFault.message : ChildFault → Text
  | .noField kind name =>
    kind.name ++ Text.ofString " has no field '" ++ Text.ofString name ++ Text.ofString "'"
  | .cannotHold kind name typeName =>
    kind.name ++ Text.ascii '.' :: Text.ofString name ++ Text.ofString " cannot hold " ++ typeName
  | .needsBlock => "BlockStatement.block must hold a Block"
  | .needsFunctionBody => "FunctionDeclaration.body must hold a FunctionBody"

/-- The fault of a conversion that does not let an element through. -/
def Conversion.fault (c : Conversion) (owner : Kind) (name : String) (typeName : Text) :
    ChildFault :=
  match c with
  | .toBlock => .needsBlock
  | .toFunctionBody => .needsFunctionBody
  | _ => .cannotHold owner name typeName

namespace Store

/-- What a message says about the type of an element. -/
def typeName (s : Store) (r : Ref) : Text :=
  match s.kind? r with
  | some kind => Text.ofString "*ast." ++ kind.name
  | none => "*ast.List"

/-- Converts an element for a member of a node; no list is a new empty list. -/
def convert (s : Store) (owner : Kind) (name : String) (c : Conversion) :
    Element → Except ChildFault (Option Ref × Store)
  | .nothing =>
    match c with
    | .toList =>
      let (list, s) := s.add (.list [])
      .ok (some list, s)
    | _ => .ok (none, s)
  | .nilList => .error (c.fault owner name "*ast.List")
  | .ref r =>
    if c.passes (s.kind? r) then .ok (some r, s) else .error (c.fault owner name (s.typeName r))

/-- Changes a member of a node. -/
def setMember (s : Store) (r : Ref) (m : Member) (e : Option Ref) : Store :=
  match s.get r with
  | .node label children => s.set r (.node label (children.set (label.kind.members.idxOf m) e))
  | .list _ => s

/-- Writes an element under a name of a node. -/
def setChild (s : Store) (r : Ref) (name : String) (e : Element) : Except ChildFault Store :=
  match s.kind? r with
  | none => .ok s
  | some kind =>
    match kind.writes? name with
    | none => .error (.noField kind name)
    | some (m, c) => do
      let (held, s) ← s.convert kind name c e
      return s.setMember r m held

/-! ## Changing a list -/

/-- The position of an element in a list. -/
def indexOf? (s : Store) (list : Ref) (e : Option Ref) : Option Nat :=
  (s.itemsOf (some list)).idxOf? e

/-- The item at a position of a list, if there is such a position. -/
def itemAt? (s : Store) (list : Ref) (i : Int) : Option (Option Ref) :=
  if 0 ≤ i then (s.itemsOf (some list))[i.toNat]? else none

/-- Puts an element at a position of a list, if there is such a position. -/
def setItem? (s : Store) (list : Ref) (i : Int) (e : Option Ref) : Option Store :=
  let items := s.itemsOf (some list)
  if 0 ≤ i ∧ i < items.length then some (s.set list (.list (items.set i.toNat e))) else none

/-- Removes the element at a position of a list, if there is such a position; those behind it move
up. -/
def removeItem? (s : Store) (list : Ref) (i : Int) : Option Store :=
  let items := s.itemsOf (some list)
  if 0 ≤ i ∧ i < items.length then some (s.set list (.list (items.eraseIdx i.toNat))) else none

/-- Adds an element at the end of a list. -/
def appendItem (s : Store) (list : Ref) (e : Option Ref) : Store :=
  s.set list (.list (s.itemsOf (some list) ++ [e]))

end Store

end ScriptSimplifier
