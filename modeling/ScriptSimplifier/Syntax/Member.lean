import ScriptSimplifier.Syntax.Kind

/-! # Members of nodes

A node is a record, and its children are members of that record.  Every kind has its own way to
reach its members by name: which member it reads under a name, which member it writes under a name,
and how it converts what is written.  None of this looks at the schema; that the two say the same
is a theorem (`Kind.accessors_agree`). -/

namespace ScriptSimplifier

/-- A member of a record that holds a child. -/
inductive Member where
  | statements | block | expression | test | consequent | alternate | body | params
  | left | right | operand | callee | arguments | object | binding
  deriving Repr, DecidableEq

/-- How an element is converted before it is written into a member. -/
inductive Conversion where
  | toExpression
  | toStatement
  | toList
  /-- The check that a block statement makes itself. -/
  | toBlock
  /-- The check that a function declaration makes itself. -/
  | toFunctionBody
  deriving Repr, DecidableEq

/-- Whether a conversion lets a node of a kind through, or a list if there is no kind. -/
def Conversion.passes : Conversion → Option Kind → Bool
  | .toExpression, some kind => kind.isExpression
  | .toStatement, some kind => kind.isStatement
  | .toBlock, some kind => kind == .block
  | .toFunctionBody, some kind => kind == .functionBody
  | .toList, none => true
  | _, _ => false

namespace Kind

/-- The members of a kind in the order of its record. -/
def members : Kind → List Member
  | .script => [.statements]
  | .functionBody => [.statements]
  | .block => [.statements]
  | .bindingIdentifier => []
  | .blockStatement => [.block]
  | .expressionStatement => [.expression]
  | .returnStatement => [.expression]
  | .throwStatement => [.expression]
  | .breakStatement => []
  | .continueStatement => []
  | .emptyStatement => []
  | .ifStatement => [.test, .consequent, .alternate]
  | .whileStatement => [.test, .body]
  | .functionDeclaration => [.params, .body]
  | .binaryExpression => [.left, .right]
  | .unaryExpression => [.operand]
  | .conditionalExpression => [.test, .consequent, .alternate]
  | .callExpression => [.callee, .arguments]
  | .staticMemberExpression => [.object]
  | .assignmentExpression => [.binding, .expression]
  | .identifierExpression => []
  | .numericLiteral => []
  | .stringLiteral => []
  | .booleanLiteral => []
  | .nullLiteral => []

/-- The member that a kind reads under a name. -/
def reads? (k : Kind) (name : String) : Option Member :=
  match k with
  | .script => if name = "statements" then some .statements else none
  | .functionBody => if name = "statements" then some .statements else none
  | .block => if name = "statements" then some .statements else none
  | .bindingIdentifier => none
  | .blockStatement => if name = "block" then some .block else none
  | .expressionStatement => if name = "expression" then some .expression else none
  | .returnStatement => if name = "expression" then some .expression else none
  | .throwStatement => if name = "expression" then some .expression else none
  | .breakStatement => none
  | .continueStatement => none
  | .emptyStatement => none
  | .ifStatement =>
    match name with
    | "test" => some .test
    | "consequent" => some .consequent
    | "alternate" => some .alternate
    | _ => none
  | .whileStatement =>
    match name with
    | "test" => some .test
    | "body" => some .body
    | _ => none
  | .functionDeclaration =>
    match name with
    | "params" => some .params
    | "body" => some .body
    | _ => none
  | .binaryExpression =>
    match name with
    | "left" => some .left
    | "right" => some .right
    | _ => none
  | .unaryExpression => if name = "operand" then some .operand else none
  | .conditionalExpression =>
    match name with
    | "test" => some .test
    | "consequent" => some .consequent
    | "alternate" => some .alternate
    | _ => none
  | .callExpression =>
    match name with
    | "callee" => some .callee
    | "arguments" => some .arguments
    | _ => none
  | .staticMemberExpression => if name = "object" then some .object else none
  | .assignmentExpression =>
    match name with
    | "binding" => some .binding
    | "expression" => some .expression
    | _ => none
  | .identifierExpression => none
  | .numericLiteral => none
  | .stringLiteral => none
  | .booleanLiteral => none
  | .nullLiteral => none

/-- The member that a kind writes under a name, and the conversion of what is written. -/
def writes? (k : Kind) (name : String) : Option (Member × Conversion) :=
  match k with
  | .script => if name = "statements" then some (.statements, .toList) else none
  | .functionBody => if name = "statements" then some (.statements, .toList) else none
  | .block => if name = "statements" then some (.statements, .toList) else none
  | .bindingIdentifier => none
  | .blockStatement => if name = "block" then some (.block, .toBlock) else none
  | .expressionStatement => if name = "expression" then some (.expression, .toExpression) else none
  | .returnStatement => if name = "expression" then some (.expression, .toExpression) else none
  | .throwStatement => if name = "expression" then some (.expression, .toExpression) else none
  | .breakStatement => none
  | .continueStatement => none
  | .emptyStatement => none
  | .ifStatement =>
    match name with
    | "test" => some (.test, .toExpression)
    | "consequent" => some (.consequent, .toStatement)
    | "alternate" => some (.alternate, .toStatement)
    | _ => none
  | .whileStatement =>
    match name with
    | "test" => some (.test, .toExpression)
    | "body" => some (.body, .toStatement)
    | _ => none
  | .functionDeclaration =>
    match name with
    | "params" => some (.params, .toList)
    | "body" => some (.body, .toFunctionBody)
    | _ => none
  | .binaryExpression =>
    match name with
    | "left" => some (.left, .toExpression)
    | "right" => some (.right, .toExpression)
    | _ => none
  | .unaryExpression => if name = "operand" then some (.operand, .toExpression) else none
  | .conditionalExpression =>
    match name with
    | "test" => some (.test, .toExpression)
    | "consequent" => some (.consequent, .toExpression)
    | "alternate" => some (.alternate, .toExpression)
    | _ => none
  | .callExpression =>
    match name with
    | "callee" => some (.callee, .toExpression)
    | "arguments" => some (.arguments, .toList)
    | _ => none
  | .staticMemberExpression => if name = "object" then some (.object, .toExpression) else none
  | .assignmentExpression =>
    match name with
    | "binding" => some (.binding, .toExpression)
    | "expression" => some (.expression, .toExpression)
    | _ => none
  | .identifierExpression => none
  | .numericLiteral => none
  | .stringLiteral => none
  | .booleanLiteral => none
  | .nullLiteral => none

end Kind

end ScriptSimplifier
