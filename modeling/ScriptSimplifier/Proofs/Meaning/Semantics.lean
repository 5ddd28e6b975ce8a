import Mathlib.Control.Basic
import ScriptSimplifier.Rule.Sequences
import ScriptSimplifier.Value.Operator

/-!
# Meaning of scripts

The meaning of an expression or a statement is the relation between the states in which it starts,
how it ends, and the states in which it ends.  A `Semantics` says what names, member accesses,
calls, assignments, operators and function declarations do; all of that is arbitrary, as long as it
depends on the meanings of the parts only and operators on primitive values compute what
`evalUnary?` and `evalBinary?` say.  Everything else is fixed: literals, the comma, conditional
expressions, and how statements complete (`evaluate`, `execute`).
-/

namespace ScriptSimplifier

/-! ## Effects -/

/-- How a computation ends: with a result, or by throwing a value. -/
inductive Answer (V α : Type) where
  | value (a : α)
  | thrown (x : V)

/-- A computation relates the states in which it starts to its answers and the states in which it
may end then.  One that does not end from a state relates the state to nothing. -/
def Effect (S V α : Type) : Type := S → Answer V α → S → Prop

namespace Effect

variable {S V α β : Type}

@[ext] theorem ext {e f : Effect S V α} (h : ∀ s answer s', e s answer s' ↔ f s answer s') :
    e = f := by
  funext s answer s'
  exact propext (h s answer s')

/-- A computation without an end. -/
def stuck : Effect S V α := fun _ _ _ => False

/-- Throws a value. -/
def throw (x : V) : Effect S V α := fun s answer s' => answer = .thrown x ∧ s' = s

instance : Monad (Effect S V) where
  pure a := fun s answer s' => answer = .value a ∧ s' = s
  bind e f := fun s answer s' =>
    (∃ a m, e s (.value a) m ∧ f a m answer s') ∨ ∃ x, e s (.thrown x) s' ∧ answer = .thrown x

theorem pure_iff {a : α} {s s' : S} {answer : Answer V α} :
    (pure a : Effect S V α) s answer s' ↔ answer = .value a ∧ s' = s := Iff.rfl

theorem bind_iff {e : Effect S V α} {f : α → Effect S V β} {s s' : S} {answer : Answer V β} :
    (e >>= f) s answer s' ↔
      (∃ a m, e s (.value a) m ∧ f a m answer s') ∨
        ∃ x, e s (.thrown x) s' ∧ answer = .thrown x := Iff.rfl

instance : LawfulMonad (Effect S V) := by
  refine LawfulMonad.mk' (Effect S V) ?_ ?_ ?_
  · intro α e
    ext s answer s'
    show (e >>= pure) s answer s' ↔ _
    cases answer <;> simp [bind_iff, pure_iff]
  · intro α β a f
    ext s answer s'
    simp only [bind_iff, pure_iff, reduceCtorEq, false_and, exists_false, or_false]
    constructor
    · rintro ⟨b, m, ⟨hb, rfl⟩, hf⟩
      cases hb
      exact hf
    · intro hf
      exact ⟨a, s, ⟨rfl, rfl⟩, hf⟩
  · intro α β γ e f g
    ext s answer s'
    simp only [bind_iff]
    constructor
    · rintro (⟨b, m, ⟨a, m', he, hf⟩ | ⟨x, he, hx⟩, hg⟩ | ⟨x, ⟨a, m, he, hf⟩ | ⟨y, he, hy⟩, hx⟩)
      · exact .inl ⟨a, m', he, .inl ⟨b, m, hf, hg⟩⟩
      · cases hx
      · exact .inl ⟨a, m, he, .inr ⟨x, hf, hx⟩⟩
      · cases hy
        exact .inr ⟨x, he, hx⟩
    · rintro (⟨a, m, he, ⟨b, m', hf, hg⟩ | ⟨x, hf, hx⟩⟩ | ⟨x, he, hx⟩)
      · exact .inl ⟨b, m', .inl ⟨a, m, he, hf⟩, hg⟩
      · exact .inr ⟨x, .inl ⟨a, m, he, hf⟩, hx⟩
      · exact .inr ⟨x, .inr ⟨x, he, rfl⟩, hx⟩

end Effect

namespace Effect

variable {S V α β : Type}

theorem stuck_bind (f : α → Effect S V β) : (stuck >>= f) = stuck := by
  ext s answer s'
  simp [bind_iff, stuck]

theorem throw_bind (x : V) (f : α → Effect S V β) : (throw x >>= f) = throw x := by
  ext s answer s'
  simp only [bind_iff, throw, reduceCtorEq, false_and, exists_false, false_or]
  constructor
  · rintro ⟨y, ⟨hy, rfl⟩, hanswer⟩
    cases hy
    exact ⟨hanswer, rfl⟩
  · rintro ⟨rfl, rfl⟩
    exact ⟨x, ⟨rfl, rfl⟩, rfl⟩

/-- One evaluation after another; the first result is discarded. -/
def next (a b : Effect S V V) : Effect S V V := do
  let _ ← a
  b

theorem next_assoc (a b c : Effect S V V) : (a.next b).next c = a.next (b.next c) := by
  simp only [next, bind_assoc]

theorem next_foldl (a b : Effect S V V) (es : List (Effect S V V)) :
    a.next (es.foldl next b) = es.foldl next (a.next b) := by
  induction es generalizing b with
  | nil => rfl
  | cons c rest ih => rw [List.foldl_cons, List.foldl_cons, ih, next_assoc]

end Effect

/-! ## Completions -/

/-- How a statement completes if it throws nothing. -/
inductive Completion (V : Type) where
  | normal
  | returned (x : V)
  | broke (target : Text)
  | continued (target : Text)

namespace Completion

variable {S V : Type}

/-- A statement and what follows it: only a normal completion goes on. -/
def andThen (first second : Effect S V (Completion V)) : Effect S V (Completion V) := do
  match ← first with
  | .normal => second
  | other => pure other

/-- Runs of a loop.  A break or continue without target is one of this loop. -/
inductive Loops (truthy : V → Bool) (test : Effect S V V) (body : Effect S V (Completion V)) :
    S → Answer V (Completion V) → S → Prop
  | refused {s s' : S} {x : V} : test s (.thrown x) s' →
      Loops truthy test body s (.thrown x) s'
  | done {s s' : S} {x : V} : test s (.value x) s' → truthy x = false →
      Loops truthy test body s (.value .normal) s'
  | thrown {s m s' : S} {x y : V} : test s (.value x) m → truthy x = true →
      body m (.thrown y) s' → Loops truthy test body s (.thrown y) s'
  | returned {s m s' : S} {x y : V} : test s (.value x) m → truthy x = true →
      body m (.value (.returned y)) s' → Loops truthy test body s (.value (.returned y)) s'
  | broke {s m s' : S} {x : V} {target : Text} : test s (.value x) m → truthy x = true →
      body m (.value (.broke target)) s' →
      Loops truthy test body s (.value (if target = [] then .normal else .broke target)) s'
  | continued {s m s' : S} {x : V} {target : Text} : test s (.value x) m → truthy x = true →
      body m (.value (.continued target)) s' → target ≠ [] →
      Loops truthy test body s (.value (.continued target)) s'
  | again {s m m' s' : S} {x : V} {c : Completion V} {answer : Answer V (Completion V)} :
      test s (.value x) m → truthy x = true → body m (.value c) m' →
      c = .normal ∨ c = .continued [] → Loops truthy test body m' answer s' →
      Loops truthy test body s answer s'

/-- A while loop. -/
def loop (truthy : V → Bool) (test : Effect S V V) (body : Effect S V (Completion V)) :
    Effect S V (Completion V) := Loops truthy test body

theorem normal_andThen (e : Effect S V (Completion V)) : andThen (pure .normal) e = e := by
  simp [andThen]

theorem andThen_normal (e : Effect S V (Completion V)) : andThen e (pure .normal) = e := by
  have hpure : (fun c : Completion V => (match c with
      | .normal => pure .normal
      | other => pure other : Effect S V (Completion V))) = pure := by
    funext c
    cases c <;> rfl
  rw [andThen, hpure, bind_pure]

theorem andThen_assoc (a b c : Effect S V (Completion V)) :
    andThen (andThen a b) c = andThen a (andThen b c) := by
  simp only [andThen, bind_assoc]
  congr 1
  funext completion
  cases completion <;> simp

end Completion

/-! ## Semantics -/

/-- What may be assigned to. -/
inductive Target (S V : Type) where
  | name (name : Text)
  | member (object : Effect S V V) (property : Text)

/-- What the parts of the language do that the simplifications know nothing about. -/
structure Semantics where
  State : Type
  Val : Type
  /-- The primitive values among all values. -/
  primitive : Value → Val
  /-- A value as a condition. -/
  truthy : Val → Bool
  truthy_primitive : ∀ v, truthy (primitive v) = v.toBoolean
  identifier : (name : Text) → Effect State Val Val
  member : (object : Effect State Val Val) → (property : Text) → Effect State Val Val
  /-- A call sees what evaluating the callee gives, which is a value. -/
  call : (callee : Effect State Val Val) → (arguments : List (Effect State Val Val)) →
    Effect State Val Val
  assign : Target State Val → (expression : Effect State Val Val) → Effect State Val Val
  unary : (operator : Text) → (operand : Effect State Val Val) → Effect State Val Val
  unary_primitive : ∀ operator v u, evalUnary? operator v = some u →
    unary operator (pure (primitive v)) = pure (primitive u)
  /-- A binary operator other than the comma.  It has the meanings of both operands, so it may
  leave out the second one. -/
  binary : (operator : Text) → (left right : Effect State Val Val) → Effect State Val Val
  binary_primitive : ∀ operator l r v, evalBinary? operator l r = some v →
    binary operator (pure (primitive l)) (pure (primitive r)) = pure (primitive v)
  /-- A function declaration is executed where it stands. -/
  declare : (name : Text) → (params : List Text) → (body : Effect State Val (Completion Val)) →
    Effect State Val (Completion Val)

namespace Tree

/-- The name of a binding. -/
def bindingName? : Tree → Option Text
  | .node (.bindingIdentifier name) _ => some name
  | _ => none

/-- The names of the bindings in a list. -/
def names (t : Tree) : List Text := t.items.filterMap bindingName?

end Tree

namespace Semantics

variable (S : Semantics)

mutual

/-- What evaluating an expression does; an absent one stands for `undefined`. -/
def evaluate : Tree → Effect S.State S.Val S.Val
  | .missing => pure (S.primitive .undefined)
  | .list _ => .stuck
  | .node label children =>
    match label, children with
    | .numericLiteral x, _ => pure (S.primitive (.number x))
    | .stringLiteral t, _ => pure (S.primitive (.string t))
    | .booleanLiteral b, _ => pure (S.primitive (.boolean b))
    | .nullLiteral, _ => pure (S.primitive .null)
    | .identifierExpression name, _ => S.identifier name
    | .staticMemberExpression property, [object] => S.member (evaluate object) property
    | .callExpression, [callee, arguments] => S.call (evaluate callee) (evaluateItems arguments)
    | .assignmentExpression, [binding, expression] =>
      match target? binding with
      | some target => S.assign target (evaluate expression)
      | none => .stuck
    | .unaryExpression operator, [operand] => S.unary operator (evaluate operand)
    | .binaryExpression operator, [left, right] =>
      if operator = Sequences.comma then (evaluate left).next (evaluate right)
      else S.binary operator (evaluate left) (evaluate right)
    | .conditionalExpression, [test, consequent, alternate] => do
      if S.truthy (← evaluate test) then evaluate consequent else evaluate alternate
    | _, _ => .stuck

/-- What a binding assigns to; only names and members can be assigned to. -/
def target? : Tree → Option (Target S.State S.Val)
  | .node (.identifierExpression name) _ => some (.name name)
  | .node (.staticMemberExpression property) [object] => some (.member (evaluate object) property)
  | _ => none

/-- What evaluating the items of a list does. -/
def evaluateItems : Tree → List (Effect S.State S.Val S.Val)
  | .list items => evaluateAll items
  | _ => []

/-- What evaluating each of the expressions among elements does. -/
def evaluateAll : List Tree → List (Effect S.State S.Val S.Val)
  | [] => []
  | t :: rest =>
    if t.isIn .expression then evaluate t :: evaluateAll rest else evaluateAll rest

end

mutual

/-- What executing a statement does; an absent one does nothing. -/
def execute : Tree → Effect S.State S.Val (Completion S.Val)
  | .missing => pure .normal
  | .list _ => .stuck
  | .node label children =>
    match label, children with
    | .emptyStatement, _ => pure .normal
    | .expressionStatement, [expression] => do
      let _ ← S.evaluate expression
      pure .normal
    | .returnStatement, [expression] => do
      let x ← S.evaluate expression
      pure (.returned x)
    | .throwStatement, [expression] => do
      let x ← S.evaluate expression
      .throw x
    | .breakStatement target, _ => pure (.broke target)
    | .continueStatement target, _ => pure (.continued target)
    | .ifStatement, [test, consequent, alternate] => do
      if S.truthy (← S.evaluate test) then execute consequent else execute alternate
    | .whileStatement, [test, body] => Completion.loop S.truthy (S.evaluate test) (execute body)
    | .blockStatement, [block] => run block
    | .functionDeclaration name, [params, body] => S.declare name params.names (run body)
    | _, _ => .stuck

/-- What running a script, a function body or a block does. -/
def run : Tree → Effect S.State S.Val (Completion S.Val)
  | .node .script [statements] => executeItems statements
  | .node .functionBody [statements] => executeItems statements
  | .node .block [statements] => executeItems statements
  | _ => .stuck

/-- What executing the items of a list does. -/
def executeItems : Tree → Effect S.State S.Val (Completion S.Val)
  | .list items => executeAll items
  | _ => .stuck

/-- What executing statements one after the other does. -/
def executeAll : List Tree → Effect S.State S.Val (Completion S.Val)
  | [] => pure .normal
  | t :: rest => Completion.andThen (execute t) (executeAll rest)

end

end Semantics

end ScriptSimplifier
