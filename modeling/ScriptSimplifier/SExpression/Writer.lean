import ScriptSimplifier.Syntax.Tree

/-! # Writing trees as s-expressions

A node is written as `(Kind attribute… field…)`, a list in square brackets and an empty place as
`nil`.  Literals and identifiers below another node are written without their kind where reading
them back gives the same node.  The indented form puts every statement on a line of its own. -/

namespace ScriptSimplifier

namespace SExpression

/-- A name that can be written without quotes. -/
def isPlainName (t : Text) : Bool :=
  t.head?.any Text.isIdentifierStart && t.all Text.isIdentifierPart

/-- The words that stand for something else than their name. -/
def reserved : List Text := ["nil", "true", "false", "null"].map Text.ofString

/-- A name as an attribute. -/
def writeName (t : Text) : Text :=
  if isPlainName t && !reserved.contains t then t else t.quote

/-- A number as an attribute. -/
def writeNumber (x : Double) : Text :=
  match x with
  | .inf true => "- Infinity"
  | x => Label.numberText x

/-- The attributes of a node, each after a blank. -/
def writeAttributes (label : Label) : Text :=
  let after (t : Text) : Text := Text.ascii ' ' :: t
  match label with
  | .identifierExpression name => after (writeName name)
  | .bindingIdentifier name => after (writeName name)
  | .functionDeclaration name => after (writeName name)
  | .staticMemberExpression property => after (writeName property)
  | .breakStatement target => if target.isEmpty then [] else after target
  | .continueStatement target => if target.isEmpty then [] else after target
  | .binaryExpression operator => after operator
  | .unaryExpression operator => after operator
  | .numericLiteral x => after (writeNumber x)
  | .stringLiteral t => after t.quote
  | .booleanLiteral b => after (if b then "true" else "false")
  | _ => []

/-- The form of a node that does not need its kind. -/
def shortForm? : Label → Option Text
  | .identifierExpression name =>
    if isPlainName name && !reserved.contains name then some name else none
  | .bindingIdentifier name => if isPlainName name then some name else none
  | .numericLiteral (.finite negative code) => some (Label.numberText (.finite negative code))
  | .stringLiteral t => some t.quote
  | .booleanLiteral b => some (if b then "true" else "false")
  | .nullLiteral => some "null"
  | _ => none

/-- The blank space before a statement at a depth: a new line if the form is indented. -/
def lineBreak (depth : Nat) : Text :=
  Text.ascii '\n' :: (List.replicate depth (Text.ofString "  ")).flatten

mutual

/-- An element at a depth of nesting; no depth is given for the form on one line. -/
def write (depth : Option Nat) (short : Bool) : Tree → Text
  | .node label children =>
    let whole := Text.ascii '(' :: label.kind.name ++ writeAttributes label ++
      writeFields depth label.fields children ++ [Text.ascii ')']
    if short then (shortForm? label).getD whole else whole
  | _ => "nil"

/-- The fields of a node, each after a blank. -/
def writeFields (depth : Option Nat) : List Field → List Tree → Text
  | f :: fields, child :: children =>
    let here : Text :=
      match child with
      | .list items =>
        if !f.isList then "nil"
        else if items.isEmpty then "[]"
        else
          match depth with
          | some d =>
            if f.accepts = .statement then
              Text.ascii '[' :: writeLines d items ++ lineBreak d ++ [Text.ascii ']']
            else
              Text.ascii '[' :: Text.join " " (writeItems depth items) ++ [Text.ascii ']']
          | none => Text.ascii '[' :: Text.join " " (writeItems depth items) ++ [Text.ascii ']']
      | .missing => if f.isList then "[]" else "nil"
      | child => if f.isList then "[]" else write depth true child
    Text.ascii ' ' :: here ++ writeFields depth fields children
  | _, _ => []

/-- List items. -/
def writeItems (depth : Option Nat) : List Tree → List Text
  | [] => []
  | item :: rest => write depth true item :: writeItems depth rest

/-- List items, each on a new line one level below a depth. -/
def writeLines (depth : Nat) : List Tree → Text
  | [] => []
  | item :: rest =>
    lineBreak (depth + 1) ++ write (some (depth + 1)) true item ++ writeLines depth rest

end

end SExpression

/-- The s-expression of a tree on one line. -/
def Tree.toSExpression (t : Tree) : Text := SExpression.write none false t

/-- The s-expression of a tree with a line for every statement. -/
def Tree.toIndented (t : Tree) : Text := SExpression.write (some 0) false t

end ScriptSimplifier
