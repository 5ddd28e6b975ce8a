import ScriptSimplifier.Store.Basic
import ScriptSimplifier.Value.Basic

/-! # The pool of constants

A pool assigns one node, the canonical fragment, to every value that was asked for.  Values without
a literal of their own are spelled as operations on those that have one: negative numbers as
negations, `nan` as 0/0, the infinities as quotients by a zero, and `undefined` as `void 0`. -/

namespace ScriptSimplifier

/-- The values of a pool, each with its fragment, in the order in which they were added. -/
structure Pool where
  entries : List (Value × Ref)
  deriving Repr

namespace Pool

/-- A pool without values. -/
def empty : Pool := ⟨[]⟩

/-- The number of values in a pool. -/
def size (p : Pool) : Nat := p.entries.length

/-- The fragment of a value. -/
def find? (p : Pool) (v : Value) : Option Ref := (p.entries.find? (·.1 == v)).map (·.2)

/-- The value of a fragment. -/
def valueOf? (p : Pool) (r : Ref) : Option Value := (p.entries.find? (·.2 == r)).map (·.1)

/-- Whether an element is a fragment of the pool. -/
def isConstant (p : Pool) (r : Option Ref) : Bool := r.any fun r => (p.valueOf? r).isSome

/-- Adds a value with a fragment. -/
def insert (p : Pool) (v : Value) (r : Ref) : Pool := ⟨p.entries ++ [(v, r)]⟩

end Pool

/-- A store together with the pool of constants that it holds. -/
structure Workspace where
  store : Store
  pool : Pool
  deriving Repr

namespace Workspace

/-- Adds a node. -/
def add (w : Workspace) (label : Label) (children : List (Option Ref)) : Ref × Workspace :=
  let (r, store) := w.store.add (.node label children)
  (r, { w with store })

/-- Adds a value to the pool with a new node as its fragment. -/
def enter (w : Workspace) (v : Value) (label : Label) (children : List (Option Ref)) :
    Ref × Workspace :=
  let (r, w) := w.add label children
  (r, { w with pool := w.pool.insert v r })

/-- The fragment of a value, entered as a node without children if the pool has none yet. -/
def literal (w : Workspace) (v : Value) (label : Label) : Ref × Workspace :=
  match w.pool.find? v with
  | some r => (r, w)
  | none => w.enter v label []

/-- The fragment of a number. -/
def number (w : Workspace) (x : Double) : Ref × Workspace :=
  if x.isNegative then
    let (operand, w) := w.literal (.number x.neg) (.numericLiteral x.neg)
    w.enter (.number x) (.unaryExpression "-") [some operand]
  else w.literal (.number x) (.numericLiteral x)

/-- The canonical fragment of a value, which is entered into the pool if it is new. -/
def constant (w : Workspace) (v : Value) : Ref × Workspace :=
  match w.pool.find? v with
  | some r => (r, w)
  | none =>
    match v with
    | .number x => w.number x
    | .string t => w.literal v (.stringLiteral t)
    | .boolean b => w.literal v (.booleanLiteral b)
    | .undefined =>
      let (zero, w) := w.literal (.number (.zero false)) (.numericLiteral (.zero false))
      w.enter v (.unaryExpression "void") [some zero]
    | .null => w.literal v .nullLiteral

/-- The store with a new pool that holds the values which are spelled by operations, those they
are built from, the truth values and null. -/
def ofStore (store : Store) : Workspace :=
  let zero := Double.zero false
  let one := Double.ofNat 1
  let w : Workspace := ⟨store, .empty⟩
  let (zeroRef, w) := w.enter (.number zero) (.numericLiteral zero) []
  let (oneRef, w) := w.enter (.number one) (.numericLiteral one) []
  let (minusZero, w) := w.enter (.number zero.neg) (.unaryExpression "-") [some zeroRef]
  let quotient (w : Workspace) (x : Double) (l r : Ref) : Workspace :=
    (w.enter (.number x) (.binaryExpression "/") [some l, some r]).2
  let w := quotient w .nan zeroRef zeroRef
  let w := quotient w (.inf false) oneRef zeroRef
  let w := quotient w (.inf true) oneRef minusZero
  let (_, w) := w.enter .undefined (.unaryExpression "void") [some zeroRef]
  let (_, w) := w.enter (.boolean true) (.booleanLiteral true) []
  let (_, w) := w.enter (.boolean false) (.booleanLiteral false) []
  let (_, w) := w.enter .null .nullLiteral []
  w

/-- The value of an element that is a fragment, a literal or the negation of a numeric literal. -/
def valueOf? (w : Workspace) (e : Option Ref) : Option Value := do
  let r ← e
  match w.pool.valueOf? r, w.store.get r with
  | some v, _ => some v
  | none, .node (.numericLiteral x) _ => some (.number x)
  | none, .node (.stringLiteral t) _ => some (.string t)
  | none, .node (.booleanLiteral b) _ => some (.boolean b)
  | none, .node .nullLiteral _ => some .null
  | none, .node (.unaryExpression operator) [some operand] =>
    match w.store.get operand with
    | .node (.numericLiteral x) _ =>
      if operator = Text.ofString "-" then some (.number x.neg) else none
    | _ => none
  | _, _ => none

end Workspace

end ScriptSimplifier
