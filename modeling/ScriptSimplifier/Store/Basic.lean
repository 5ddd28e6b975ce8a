import ScriptSimplifier.Syntax.Member
import ScriptSimplifier.Syntax.Tree

/-! # The store of a tree that changes

While a tree is edited, its nodes and lists have an identity of their own: two nodes that look alike
are still two nodes, and a node may be reached from several places.  The store holds the elements of
a tree by reference.  All empty statements are one and the same node, and so are all null
literals. -/

namespace ScriptSimplifier

/-- The identity of an element. -/
inductive Ref where
  | emptyStatement
  | null
  | cell (n : Nat)
  deriving Repr, DecidableEq

/-- An element with references to its children: a node is a record, which has one place for each
member of its kind. -/
inductive Cell where
  | node (label : Label) (children : List (Option Ref))
  | list (items : List (Option Ref))
  deriving Repr, DecidableEq

/-- The elements of a tree by reference. -/
structure Store where
  cells : Array Cell
  deriving Repr

namespace Store

/-- A store without elements. -/
def empty : Store := ⟨#[]⟩

/-- The element of a reference; a reference that was never given out reads as an empty statement. -/
def get (s : Store) : Ref → Cell
  | .emptyStatement => .node .emptyStatement []
  | .null => .node .nullLiteral []
  | .cell n => (s.cells[n]?).getD (.node .emptyStatement [])

/-- Adds an element and gives its reference. -/
def add (s : Store) (c : Cell) : Ref × Store :=
  match c with
  | .node .emptyStatement _ => (.emptyStatement, s)
  | .node .nullLiteral _ => (.null, s)
  | c => (.cell s.cells.size, ⟨s.cells.push c⟩)

/-- Changes an element; the shared nodes have nothing to change. -/
def set (s : Store) (r : Ref) (c : Cell) : Store :=
  match r with
  | .cell n => ⟨s.cells.setIfInBounds n c⟩
  | _ => s

/-! ## Nodes -/

/-- The label of a node. -/
def label? (s : Store) (r : Ref) : Option Label :=
  match s.get r with
  | .node label _ => some label
  | .list _ => none

/-- The kind of a node. -/
def kind? (s : Store) (r : Ref) : Option Kind := (s.label? r).map Label.kind

/-- What a member of a node holds. -/
def member (s : Store) (r : Ref) (m : Member) : Option Ref :=
  match s.get r with
  | .node label children => (children[label.kind.members.idxOf m]?).join
  | .list _ => none

/-- The child under a name, as the kind of the node reads it. -/
def child (s : Store) (r : Ref) (name : String) : Option Ref :=
  ((s.kind? r).bind (·.reads? name)).bind (s.member r)

/-! ## Lists -/

/-- Whether an element is a list. -/
def isList (s : Store) (r : Ref) : Bool :=
  match s.get r with
  | .list _ => true
  | .node _ _ => false

/-- The items of a list. -/
def items? (s : Store) (r : Ref) : Option (List (Option Ref)) :=
  match s.get r with
  | .list items => some items
  | .node _ _ => none

/-- The items of a list that may be absent; an absent list has none. -/
def itemsOf (s : Store) (r : Option Ref) : List (Option Ref) := (r.bind s.items?).getD []

/-! ## Trees -/

/-- The tree below a reference, down to a depth. -/
def unfold (s : Store) : (depth : Nat) → Option Ref → Tree
  | 0, _ => .missing
  | _, none => .missing
  | depth + 1, some r =>
    match s.get r with
    | .node label children => .node label (children.map (s.unfold depth))
    | .list items => .list (items.map (s.unfold depth))

/-- The tree below a reference.  A path without repetition is not longer than the number of
elements, so the depth cuts nothing off. -/
def tree (s : Store) (r : Option Ref) : Tree := s.unfold (s.cells.size + 2) r

mutual

/-- Adds a tree and gives the reference of its root. -/
def plant (s : Store) : Tree → Option Ref × Store
  | .missing => (none, s)
  | .node label children =>
    let (refs, s) := s.plantAll children
    let (r, s) := s.add (.node label refs)
    (some r, s)
  | .list items =>
    let (refs, s) := s.plantAll items
    let (r, s) := s.add (.list refs)
    (some r, s)

/-- Adds trees in order and gives the references of their roots. -/
def plantAll (s : Store) : List Tree → List (Option Ref) × Store
  | [] => ([], s)
  | t :: rest =>
    let (r, s) := s.plant t
    let (refs, s) := s.plantAll rest
    (r :: refs, s)

end

end Store

end ScriptSimplifier
