import ScriptSimplifier.Text.Basic

/-! # Kinds of nodes and their schema

Every node of a tree has a kind, and the kind fixes the fields in which the node holds its
children.  The schema is the single source for this: everything that walks, prints, reads or
checks a tree asks `Kind.fields`. -/

namespace ScriptSimplifier

/-- The kinds of nodes. -/
inductive Kind where
  | script | functionBody | block
  | blockStatement | expressionStatement | returnStatement | throwStatement
  | breakStatement | continueStatement | emptyStatement | ifStatement | whileStatement
  | functionDeclaration | bindingIdentifier
  | binaryExpression | unaryExpression | conditionalExpression | callExpression
  | staticMemberExpression | assignmentExpression | identifierExpression
  | numericLiteral | stringLiteral | booleanLiteral | nullLiteral
  deriving Repr, DecidableEq

namespace Kind

/-- Every kind, in the order of its number. -/
def all : List Kind :=
  [.script, .functionBody, .block, .blockStatement, .expressionStatement, .returnStatement,
   .throwStatement, .breakStatement, .continueStatement, .emptyStatement, .ifStatement,
   .whileStatement, .functionDeclaration, .bindingIdentifier, .binaryExpression, .unaryExpression,
   .conditionalExpression, .callExpression, .staticMemberExpression, .assignmentExpression,
   .identifierExpression, .numericLiteral, .stringLiteral, .booleanLiteral, .nullLiteral]

/-- The name of a kind. -/
def name : Kind → Text
  | .script => "Script"
  | .functionBody => "FunctionBody"
  | .block => "Block"
  | .blockStatement => "BlockStatement"
  | .expressionStatement => "ExpressionStatement"
  | .returnStatement => "ReturnStatement"
  | .throwStatement => "ThrowStatement"
  | .breakStatement => "BreakStatement"
  | .continueStatement => "ContinueStatement"
  | .emptyStatement => "EmptyStatement"
  | .ifStatement => "IfStatement"
  | .whileStatement => "WhileStatement"
  | .functionDeclaration => "FunctionDeclaration"
  | .bindingIdentifier => "BindingIdentifier"
  | .binaryExpression => "BinaryExpression"
  | .unaryExpression => "UnaryExpression"
  | .conditionalExpression => "ConditionalExpression"
  | .callExpression => "CallExpression"
  | .staticMemberExpression => "StaticMemberExpression"
  | .assignmentExpression => "AssignmentExpression"
  | .identifierExpression => "IdentifierExpression"
  | .numericLiteral => "LiteralNumericExpression"
  | .stringLiteral => "LiteralStringExpression"
  | .booleanLiteral => "LiteralBooleanExpression"
  | .nullLiteral => "LiteralNullExpression"

/-- The kind with a name. -/
def ofName? (t : Text) : Option Kind := all.find? (·.name == t)

/-- Kinds are numbered from one; zero stands for no kind. -/
def number (k : Kind) : Nat := all.idxOf k + 1

/-- The kind with a number. -/
def ofNumber? (n : Int) : Option Kind := if 0 < n then all[n.toNat - 1]? else none

/-- What is shown for a number that should be a kind's. -/
def nameOfNumber (n : Int) : Text :=
  match ofNumber? n with
  | some k => k.name
  | none =>
    if n = 0 then "<none>"
    else Text.ofString "<kind " ++ Text.ofInt n ++ Text.ofString ">"

/-- A kind of statement. -/
def isStatement : Kind → Bool
  | .blockStatement | .expressionStatement | .returnStatement | .throwStatement
  | .breakStatement | .continueStatement | .emptyStatement | .ifStatement | .whileStatement
  | .functionDeclaration => true
  | _ => false

/-- A kind of expression. -/
def isExpression : Kind → Bool
  | .binaryExpression | .unaryExpression | .conditionalExpression | .callExpression
  | .staticMemberExpression | .assignmentExpression | .identifierExpression
  | .numericLiteral | .stringLiteral | .booleanLiteral | .nullLiteral => true
  | _ => false

end Kind

/-! ## Schema -/

/-- What a field may hold. -/
inductive Category where
  | statement | expression | block | functionBody | binding
  deriving Repr, DecidableEq

namespace Category

/-- Every category. -/
def all : List Category := [.statement, .expression, .block, .functionBody, .binding]

/-- The name of a category. -/
def name : Category → Text
  | .statement => "statement"
  | .expression => "expression"
  | .block => "block"
  | .functionBody => "function body"
  | .binding => "binding"

/-- Whether nodes of a kind belong to a category. -/
def accepts : Category → Kind → Bool
  | .statement, k => k.isStatement
  | .expression, k => k.isExpression
  | .block, k => k == .block
  | .functionBody, k => k == .functionBody
  | .binding, k => k == .bindingIdentifier

end Category

/-- A field of a kind: it holds one child, which may be optional, or a list of children. -/
structure Field where
  name : String
  isList : Bool
  optional : Bool
  accepts : Category
  deriving Repr, DecidableEq

namespace Field

/-- A field that must hold one child. -/
def single (name : String) (accepts : Category) : Field := ⟨name, false, false, accepts⟩

/-- A field that may hold one child. -/
def maybe (name : String) (accepts : Category) : Field := ⟨name, false, true, accepts⟩

/-- A field that holds a list of children. -/
def list (name : String) (accepts : Category) : Field := ⟨name, true, false, accepts⟩

end Field

namespace Kind

/-- The fields of a kind, in order. -/
def fields : Kind → List Field
  | .script | .functionBody | .block => [.list "statements" .statement]
  | .blockStatement => [.single "block" .block]
  | .expressionStatement => [.single "expression" .expression]
  | .returnStatement => [.maybe "expression" .expression]
  | .throwStatement => [.single "expression" .expression]
  | .ifStatement =>
    [.single "test" .expression, .single "consequent" .statement, .maybe "alternate" .statement]
  | .whileStatement => [.single "test" .expression, .single "body" .statement]
  | .functionDeclaration => [.list "params" .binding, .single "body" .functionBody]
  | .binaryExpression => [.single "left" .expression, .single "right" .expression]
  | .unaryExpression => [.single "operand" .expression]
  | .conditionalExpression =>
    [.single "test" .expression, .single "consequent" .expression,
     .single "alternate" .expression]
  | .callExpression => [.single "callee" .expression, .list "arguments" .expression]
  | .staticMemberExpression => [.single "object" .expression]
  | .assignmentExpression => [.single "binding" .expression, .single "expression" .expression]
  | _ => []

/-- The field of a kind with a name. -/
def field? (k : Kind) (name : String) : Option Field := k.fields.find? (·.name == name)

/-- Whether a kind has a list field with a name. -/
def isListField (k : Kind) (name : String) : Bool := (k.field? name).any (·.isList)

end Kind

end ScriptSimplifier
