import ScriptSimplifier.Syntax.Tree

/-! # Source text of a tree

The source is one line of program text.  An expression is put in parentheses where it binds less
tightly than its place requires.  A call with an argument that is not an expression has no
source, nor has a unary operation without operator. -/

namespace ScriptSimplifier

/-! ## Precedence -/

/-- How tightly an expression binds; a greater level binds tighter. -/
abbrev Level := Nat

namespace Level

def sequence : Level := 0
def assignment : Level := 1
def conditional : Level := 2
def logicalOr : Level := 3
def logicalAnd : Level := 4
def bitOr : Level := 5
def bitXor : Level := 6
def bitAnd : Level := 7
def equality : Level := 8
def relational : Level := 9
def shift : Level := 10
def additive : Level := 11
def multiplicative : Level := 12
def unary : Level := 13
def call : Level := 14
def primary : Level := 15

/-- The levels of the binary operators. -/
def ofOperator : List (String × Level) :=
  [(",", sequence), ("||", logicalOr), ("&&", logicalAnd), ("|", bitOr), ("^", bitXor),
   ("&", bitAnd), ("==", equality), ("!=", equality), ("===", equality), ("!==", equality),
   ("<", relational), ("<=", relational), (">", relational), (">=", relational),
   ("in", relational), ("instanceof", relational), ("<<", shift), (">>", shift),
   (">>>", shift), ("+", additive), ("-", additive), ("*", multiplicative),
   ("/", multiplicative), ("%", multiplicative)]

/-- The level of a binary operator; one that is not known binds like the comma. -/
def binary (operator : Text) : Level :=
  ((ofOperator.find? fun entry => Text.ofString entry.1 == operator).map (·.2)).getD sequence

end Level

/-- The level of a node with a label. -/
def Label.level : Label → Level
  | .binaryExpression operator => Level.binary operator
  | .unaryExpression _ => Level.unary
  | .conditionalExpression => Level.conditional
  | .assignmentExpression => Level.assignment
  | .callExpression => Level.call
  | .staticMemberExpression _ => Level.call
  | .numericLiteral x => if x.isNegative then Level.unary else Level.primary
  | _ => Level.primary

/-- The level of an element. -/
def Tree.level : Tree → Level
  | .node label _ => label.level
  | _ => Level.primary

/-! ## Pieces of source text -/

namespace Source

/-- The text in parentheses. -/
def parenthesize (t : Text) : Text := Text.ascii '(' :: (t ++ [Text.ascii ')'])

/-- An expression at a place that requires a level, given the expression's own text. -/
def operand (required : Level) (t : Tree) (text : Text) : Text :=
  if t.isMissing then "<nil>"
  else if t.level < required then parenthesize text
  else text

/-- A statement below another one, given its own text. -/
def substatement (t : Tree) (text : Text) : Text := if t.isMissing then ";" else text

/-- Statements in braces, given their texts. -/
def braced (texts : List Text) : Text :=
  if texts.isEmpty then "\x7b\x7d"
  else Text.ofString "\x7b " ++ Text.join " " texts ++ Text.ofString " \x7d"

/-- A jump with an optional target. -/
def jump (keyword : String) (target : Text) : Text :=
  Text.ofString keyword ++ (if target.isEmpty then [] else Text.ascii ' ' :: target) ++
    [Text.ascii ';']

/-- A unary operation on an operand, given the operand's own text.  A blank separates a word or
a sign from what would otherwise run into it. -/
def unary? (operator : Text) (t : Tree) (text : Text) : Option Text :=
  operator.getLast?.map fun last =>
    let text := if t.level < Level.unary then parenthesize text else text
    let apart := Text.isLetter last ||
      ((last == Text.ascii '-' || last == Text.ascii '+') && text.head? == some last)
    operator ++ (if apart then Text.ascii ' ' :: text else text)

/-- A binary operation. -/
def binary (operator left right : Text) : Text :=
  let before : Text := if operator = Text.ofString "," then "" else " "
  left ++ before ++ operator ++ Text.ascii ' ' :: right

/-- An if statement without alternate, whose end a following alternate would join. -/
def isOpenIf : Tree → Bool
  | .node .ifStatement [_, _, .missing] => true
  | _ => false

/-- An if statement from the texts of its parts. -/
def conditional (test : Text) (consequent : Tree) (consequentText : Text) (alternate : Tree)
    (alternateText : Text) : Text :=
  let first : Text :=
    if isOpenIf consequent && !alternate.isMissing then
      Text.ofString "\x7b " ++ consequentText ++ Text.ofString " \x7d"
    else substatement consequent consequentText
  let second : Text :=
    if alternate.isMissing then []
    else Text.ofString " else " ++ substatement alternate alternateText
  Text.ofString "if (" ++ test ++ Text.ofString ") " ++ first ++ second

end Source

/-! ## Printing -/

mutual

/-- The source of an element on its own; an absent one has an empty text and the items of a list
are separated by blanks. -/
def Tree.source? : Tree → Option Text
  | .missing => some []
  | .list items => (sources? items).map (Text.join " ")
  | .node label children =>
    match label, children with
    | .script, [statements] => statements.source?
    | .functionBody, [.list items] => (sources? items).map Source.braced
    | .functionBody, _ => some (Source.braced [])
    | .block, [.list items] => (sources? items).map Source.braced
    | .block, _ => some (Source.braced [])
    | .bindingIdentifier name, _ => some name
    | .blockStatement, [block] =>
      block.source?.map fun text => if block.isMissing then Source.braced [] else text
    | .expressionStatement, [expression] =>
      expression.source?.map fun text =>
        Source.operand Level.sequence expression text ++ [Text.ascii ';']
    | .returnStatement, [expression] =>
      expression.source?.map fun text =>
        if expression.isMissing then Text.ofString "return;"
        else Text.ofString "return " ++ text ++ [Text.ascii ';']
    | .throwStatement, [expression] =>
      expression.source?.map fun text =>
        Text.ofString "throw " ++ Source.operand Level.sequence expression text ++
          [Text.ascii ';']
    | .breakStatement target, _ => some (Source.jump "break" target)
    | .continueStatement target, _ => some (Source.jump "continue" target)
    | .emptyStatement, _ => some (Text.ofString ";")
    | .ifStatement, [test, consequent, alternate] => do
      let testText ← test.source?
      let consequentText ← consequent.source?
      let alternateText ← alternate.source?
      return Source.conditional (Source.operand Level.sequence test testText) consequent
        consequentText alternate alternateText
    | .whileStatement, [test, body] => do
      let testText ← test.source?
      let bodyText ← body.source?
      return Text.ofString "while (" ++ Source.operand Level.sequence test testText ++
        Text.ofString ") " ++ Source.substatement body bodyText
    | .functionDeclaration name, [params, body] => do
      let paramTexts ←
        match params with
        | .list items => sources? items
        | _ => some []
      let bodyText ← body.source?
      return Text.ofString "function " ++ name ++ Text.ascii '(' :: Text.join ", " paramTexts ++
        Text.ofString ") " ++ (if body.isMissing then Source.braced [] else bodyText)
    | .binaryExpression operator, [left, right] => do
      let level := Level.binary operator
      let leftText ← left.source?
      let rightText ← right.source?
      return Source.binary operator (Source.operand level left leftText)
        (Source.operand (level + 1) right rightText)
    | .unaryExpression operator, [operand] => do
      let text ← operand.source?
      Source.unary? operator operand text
    | .conditionalExpression, [test, consequent, alternate] => do
      let testText ← test.source?
      let consequentText ← consequent.source?
      let alternateText ← alternate.source?
      return Source.operand Level.logicalOr test testText ++ Text.ofString " ? " ++
        Source.operand Level.assignment consequent consequentText ++ Text.ofString " : " ++
        Source.operand Level.assignment alternate alternateText
    | .callExpression, [callee, arguments] => do
      let calleeText ← callee.source?
      let argumentTexts ←
        match arguments with
        | .list items => argumentSources? items
        | _ => some []
      return Source.operand Level.call callee calleeText ++
        Source.parenthesize (Text.join ", " argumentTexts)
    | .staticMemberExpression property, [object] =>
      object.source?.map fun text =>
        Source.operand Level.call object text ++ Text.ascii '.' :: property
    | .assignmentExpression, [binding, expression] => do
      let bindingText ← binding.source?
      let expressionText ← expression.source?
      return Source.operand Level.call binding bindingText ++ Text.ofString " = " ++
        Source.operand Level.assignment expression expressionText
    | .identifierExpression name, _ => some name
    | label, _ => some (label.literalText?.getD [])

/-- The sources of elements. -/
def sources? : List Tree → Option (List Text)
  | [] => some []
  | t :: rest => do
    let text ← t.source?
    let texts ← sources? rest
    return text :: texts

/-- The sources of call arguments, each of which must be an expression. -/
def argumentSources? : List Tree → Option (List Text)
  | [] => some []
  | t :: rest =>
    if t.isIn .expression then do
      let text ← t.source?
      let texts ← argumentSources? rest
      return Source.operand Level.assignment t text :: texts
    else none

end

end ScriptSimplifier
