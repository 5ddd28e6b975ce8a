import ScriptSimplifier.Syntax.Label

/-! # Trees

A tree is a node with its children in the order of the schema, a list, or the absence of a child.
A list field holds a list, and is `missing` only in trees that are not valid. -/

namespace ScriptSimplifier

/-- An element of a tree with everything below it. -/
inductive Tree where
  | missing
  | node (label : Label) (children : List Tree)
  | list (items : List Tree)
  deriving Repr, Inhabited

namespace Tree

/-- The kind of a node. -/
def kind? : Tree → Option Kind
  | .node label _ => some label.kind
  | _ => none

/-- No element at all. -/
def isMissing : Tree → Bool
  | .missing => true
  | _ => false

/-- The items of a list; anything else has none. -/
def items : Tree → List Tree
  | .list items => items
  | _ => []

/-- The child of a node in a field; `missing` if there is no such field. -/
def child (name : String) : Tree → Tree
  | .node label children =>
    ((label.fields.zip children).find? (·.1.name == name)).elim .missing (·.2)
  | _ => .missing

/-- Whether an element is a node that a field of a category may hold. -/
def isIn (c : Category) (t : Tree) : Bool := t.kind?.any c.accepts

/-- A new node without attributes and children; its lists are empty. -/
def blank (k : Kind) : Tree :=
  .node (.blank k) (k.fields.map fun f => if f.isList then .list [] else .missing)

/-- A node without attributes in which every field is empty, list fields too. -/
def bare (k : Kind) : Tree := .node (.blank k) (k.fields.map fun _ => .missing)

/-- What a message says about the type of an element. -/
def typeName : Tree → Text
  | .node label _ => Text.ofString "*ast." ++ label.kind.name
  | _ => "*ast.List"

end Tree

mutual

/-- The number of elements of a tree, empty places included. -/
def Tree.size : Tree → Nat
  | .missing => 1
  | .node _ children => sizeOfAll children + 1
  | .list items => sizeOfAll items + 1

/-- The number of elements of trees. -/
def sizeOfAll : List Tree → Nat
  | [] => 0
  | t :: rest => t.size + sizeOfAll rest

end

end ScriptSimplifier
