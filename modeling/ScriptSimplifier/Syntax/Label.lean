import ScriptSimplifier.Numeric.Layout
import ScriptSimplifier.Syntax.Kind
import ScriptSimplifier.Text.Quoted

/-! # Labels of nodes

A label is everything about a node except its children: its kind together with the attributes that
the kind has. -/

namespace ScriptSimplifier

/-- The kind of a node and its attributes. -/
inductive Label where
  | script
  | functionBody
  | block
  | blockStatement
  | expressionStatement
  | returnStatement
  | throwStatement
  | breakStatement (target : Text)
  | continueStatement (target : Text)
  | emptyStatement
  | ifStatement
  | whileStatement
  | functionDeclaration (name : Text)
  | bindingIdentifier (name : Text)
  | binaryExpression (operator : Text)
  | unaryExpression (operator : Text)
  | conditionalExpression
  | callExpression
  | staticMemberExpression (property : Text)
  | assignmentExpression
  | identifierExpression (name : Text)
  | numericLiteral (x : Double)
  | stringLiteral (t : Text)
  | booleanLiteral (b : Bool)
  | nullLiteral
  deriving Repr, DecidableEq

namespace Label

/-- The kind of a label. -/
def kind : Label → Kind
  | .script => .script
  | .functionBody => .functionBody
  | .block => .block
  | .blockStatement => .blockStatement
  | .expressionStatement => .expressionStatement
  | .returnStatement => .returnStatement
  | .throwStatement => .throwStatement
  | .breakStatement _ => .breakStatement
  | .continueStatement _ => .continueStatement
  | .emptyStatement => .emptyStatement
  | .ifStatement => .ifStatement
  | .whileStatement => .whileStatement
  | .functionDeclaration _ => .functionDeclaration
  | .bindingIdentifier _ => .bindingIdentifier
  | .binaryExpression _ => .binaryExpression
  | .unaryExpression _ => .unaryExpression
  | .conditionalExpression => .conditionalExpression
  | .callExpression => .callExpression
  | .staticMemberExpression _ => .staticMemberExpression
  | .assignmentExpression => .assignmentExpression
  | .identifierExpression _ => .identifierExpression
  | .numericLiteral _ => .numericLiteral
  | .stringLiteral _ => .stringLiteral
  | .booleanLiteral _ => .booleanLiteral
  | .nullLiteral => .nullLiteral

/-- The fields of a node with a label. -/
def fields (l : Label) : List Field := l.kind.fields

/-- The label of a kind with empty attributes. -/
def blank : Kind → Label
  | .script => .script
  | .functionBody => .functionBody
  | .block => .block
  | .blockStatement => .blockStatement
  | .expressionStatement => .expressionStatement
  | .returnStatement => .returnStatement
  | .throwStatement => .throwStatement
  | .breakStatement => .breakStatement []
  | .continueStatement => .continueStatement []
  | .emptyStatement => .emptyStatement
  | .ifStatement => .ifStatement
  | .whileStatement => .whileStatement
  | .functionDeclaration => .functionDeclaration []
  | .bindingIdentifier => .bindingIdentifier []
  | .binaryExpression => .binaryExpression []
  | .unaryExpression => .unaryExpression []
  | .conditionalExpression => .conditionalExpression
  | .callExpression => .callExpression
  | .staticMemberExpression => .staticMemberExpression []
  | .assignmentExpression => .assignmentExpression
  | .identifierExpression => .identifierExpression []
  | .numericLiteral => .numericLiteral (.zero false)
  | .stringLiteral => .stringLiteral []
  | .booleanLiteral => .booleanLiteral false
  | .nullLiteral => .nullLiteral

/-- The blank label of a kind has that kind. -/
theorem kind_blank (k : Kind) : (blank k).kind = k := by cases k <;> rfl

/-- A number in a text, the negative zero with its sign. -/
def numberText (x : Double) : Text := if x = .zero true then "-0" else x.toText

/-- The text of a literal. -/
def literalText? : Label → Option Text
  | .numericLiteral x => some (numberText x)
  | .stringLiteral t => some t.quote
  | .booleanLiteral b => some (if b then "true" else "false")
  | .nullLiteral => some "null"
  | _ => none

/-- The kind of a node followed by its attributes, as shown in a listing. -/
def caption (l : Label) : Text :=
  let after (t : Text) : Text := l.kind.name ++ Text.ascii ' ' :: t
  match l with
  | .identifierExpression name => after name
  | .bindingIdentifier name => after name
  | .functionDeclaration name => after name
  | .staticMemberExpression property => after (Text.ascii '.' :: property)
  | .binaryExpression operator => after operator
  | .unaryExpression operator => after operator
  | .numericLiteral x => after (numberText x)
  | .stringLiteral t => after t.quote
  | .booleanLiteral b => after (if b then "true" else "false")
  | _ => l.kind.name

end Label

end ScriptSimplifier
