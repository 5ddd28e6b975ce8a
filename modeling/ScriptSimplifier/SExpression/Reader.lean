import ScriptSimplifier.SExpression.Token
import ScriptSimplifier.Syntax.Tree
import ScriptSimplifier.Text.Quoted

/-! # Reading trees from s-expressions

The reader takes one token at a time.  Its state says what may come next and keeps the nodes and
lists that are still open, the innermost first.  An error names the places that were being read
when it arose. -/

namespace ScriptSimplifier

namespace SExpression

/-! ## Errors -/

/-- What is wrong with a text. -/
inductive Cause where
  | noToken (column : Nat)
  | expected (what : Text) (found : Token)
  | unexpected (found : Token)
  | unknownKind (found : Token)
  | missingField (kind : Kind) (field : String)
  | unterminatedList (field : String)
  | malformedString (found : Token)
  | wrongCategory (kind : Kind) (category : Category) (column : Nat)
  deriving Repr, DecidableEq

/-- A place that was being read when an error arose. -/
inductive Place where
  | field (kind : Kind) (name : String)
  | item (list : String) (index : Nat)
  deriving Repr, DecidableEq

/-- Why a text is no s-expression of a tree; the places go from the outermost to the innermost. -/
structure SyntaxError where
  places : List Place
  cause : Cause
  deriving Repr, DecidableEq

/-- The text of a cause. -/
def Cause.message : Cause → Text
  | .noToken column => Text.ofString "unexpected input at column " ++ Text.ofNat column
  | .expected what found =>
    Text.ofString "expected " ++ what ++ Text.ofString ", have " ++ found.shown
  | .unexpected found => Text.ofString "unexpected " ++ found.shown
  | .unknownKind found => Text.ofString "unknown node type " ++ found.shown
  | .missingField kind field =>
    kind.name ++ Text.ofString ": missing field '" ++ Text.ofString field ++ Text.ofString "'"
  | .unterminatedList field =>
    Text.ofString "unterminated list '" ++ Text.ofString field ++ Text.ofString "'"
  | .malformedString found => Text.ofString "malformed string " ++ found.shown
  | .wrongCategory kind category column =>
    kind.name ++ Text.ofString " is not a " ++ category.name ++ Text.ofString " (at column " ++
      Text.ofNat column ++ Text.ofString ")"

/-- The text of a place. -/
def Place.message : Place → Text
  | .field kind name => kind.name ++ Text.ascii '.' :: Text.ofString name ++ Text.ofString ": "
  | .item list index =>
    Text.ofString list ++ Text.ascii '[' :: Text.ofNat index ++ Text.ofString "]: "

/-- The text of an error. -/
def SyntaxError.message (e : SyntaxError) : Text :=
  e.places.flatMap Place.message ++ Text.ofString "s-expr syntax error: " ++ e.cause.message

/-! ## State -/

/-- A node or list that is still open. -/
inductive Frame where
  /-- A node: the column of its parenthesis, its label, the children read so far in reverse order,
  and the fields still to come. -/
  | node (column : Nat) (label : Label) (done : List Tree) (todo : List Field)
  /-- A list in a field, with the items read so far in reverse order. -/
  | list (field : Field) (done : List Tree)

/-- What the reader is waiting for. -/
inductive State where
  /-- The opening parenthesis of the tree. -/
  | start
  /-- The kind of the node whose parenthesis stands at a column. -/
  | kind (column : Nat) (frames : List Frame)
  /-- The attribute of a node of a kind. -/
  | attribute (column : Nat) (kind : Kind) (frames : List Frame)
  /-- The rest of a number whose minus sign stands alone. -/
  | magnitude (column : Nat) (frames : List Frame)
  /-- The next part of the innermost open node or list. -/
  | inside (frame : Frame) (frames : List Frame)
  /-- Nothing more. -/
  | finished (tree : Tree)

/-- The place that a frame is reading, if an error below it is to name one. -/
def Frame.place? : Frame → Option Place
  | .node _ label _ (f :: _) => if f.isList then none else some (.field label.kind f.name)
  | .node _ _ _ [] => none
  | .list field done => some (.item field.name done.length)

/-- The category that a frame accepts next. -/
def Frame.accepts? : Frame → Option Category
  | .node _ _ _ (f :: _) => some f.accepts
  | .node _ _ _ [] => none
  | .list field _ => some field.accepts

/-- The frame after its next child. -/
def Frame.add (child : Tree) : Frame → Frame
  | .node column label done todo => .node column label (child :: done) todo.tail
  | .list field done => .list field (child :: done)

/-- An error below the given frames. -/
def fail {α : Type} (frames : List Frame) (cause : Cause) : Except SyntaxError α :=
  .error ⟨(frames.filterMap Frame.place?).reverse, cause⟩

/-! ## Steps -/

/-- Adds a child whose first token stands at a column. -/
def supply (column : Nat) (label : Label) (children : List Tree) :
    List Frame → Except SyntaxError State
  | [] => .ok (.finished (.node label children))
  | frame :: frames =>
    match frame.accepts? with
    | some category =>
      if category.accepts label.kind then
        .ok (.inside (frame.add (.node label children)) frames)
      else fail (frame :: frames) (.wrongCategory label.kind category column)
    | none => .ok (.inside frame frames)

/-- Starts a node whose label is known. -/
def openNode (column : Nat) (label : Label) (frames : List Frame) : State :=
  .inside (.node column label [] label.fields) frames

/-- The number of a numeral with an optional minus sign. -/
def numberValue (lexeme : Text) : Double :=
  match lexeme with
  | b :: rest =>
    let negative := b == Text.ascii '-'
    let digits := if negative then rest else lexeme
    ((Numeral.read? digits).map fun n => n.toDecimal.toDouble negative).getD .nan
  | [] => .nan

/-- The label of a child that an identifier stands for. -/
def wordLabel (category : Option Category) (t : Token) : Label :=
  if category = some .binding then .bindingIdentifier t.lexeme
  else if t.isWord "true" then .booleanLiteral true
  else if t.isWord "false" then .booleanLiteral false
  else if t.isWord "null" then .nullLiteral
  else .identifierExpression t.lexeme

/-- Reads the first token of a child of the innermost frame. -/
def beginChild (t : Token) (frame : Frame) (frames : List Frame) : Except SyntaxError State :=
  match t.cls with
  | .openParen => .ok (.kind t.column (frame :: frames))
  | .number => supply t.column (.numericLiteral (numberValue t.lexeme)) [] (frame :: frames)
  | .string =>
    match t.lexeme.unquote? with
    | some text => supply t.column (.stringLiteral text) [] (frame :: frames)
    | none => fail (frame :: frames) (.malformedString t)
  | .identifier => supply t.column (wordLabel frame.accepts? t) [] (frame :: frames)
  | _ => fail (frame :: frames) (.unexpected t)

/-- The children for fields that are left out at the end of a node: an empty list, or nothing
where the field is optional. -/
def defaults (kind : Kind) : List Field → Except Cause (List Tree)
  | [] => .ok []
  | f :: fields =>
    if f.isList then (defaults kind fields).map (.list [] :: ·)
    else if f.optional then (defaults kind fields).map (.missing :: ·)
    else .error (.missingField kind f.name)

/-- Reads the next token inside an open node or list. -/
def stepInside (t : Token) (frame : Frame) (frames : List Frame) : Except SyntaxError State :=
  match frame with
  | .node column label done todo =>
    if t.cls = .closeParen then
      match defaults label.kind todo with
      | .ok rest => supply column label (done.reverse ++ rest) frames
      | .error cause => fail frames cause
    else
      match todo with
      | [] => fail frames (.expected TokenClass.closeParen.name t)
      | f :: _ =>
        if f.isList then
          if t.cls = .openBracket then .ok (.inside (.list f []) (frame :: frames))
          else fail frames (.expected TokenClass.openBracket.name t)
        else if t.isWord "nil" then .ok (.inside (frame.add .missing) frames)
        else beginChild t frame frames
  | .list field done =>
    if t.cls = .closeBracket then
      match frames with
      | owner :: outer => .ok (.inside (owner.add (.list done.reverse)) outer)
      | [] => .ok (.inside frame [])
    else if t.cls = .endOfInput then fail frames (.unterminatedList field.name)
    else beginChild t frame frames

/-- Reads a quoted string. -/
def stringOf (t : Token) : Except Cause Text :=
  match t.lexeme.unquote? with
  | some text => .ok text
  | none => .error (.malformedString t)

/-- Reads a name: an identifier or a quoted string. -/
def nameOf (t : Token) : Except Cause Text :=
  match t.cls with
  | .identifier => .ok t.lexeme
  | .string => stringOf t
  | _ => .error (.expected "name" t)

/-- Reads an operator: a sign or a word. -/
def operatorOf (t : Token) : Except Cause Text :=
  if t.cls = .operator ∨ t.cls = .identifier then .ok t.lexeme
  else .error (.expected "operator" t)

/-- Opens a node with the label that was read, or fails. -/
def openWith (column : Nat) (frames : List Frame) (label : Except Cause Label) :
    Except SyntaxError State :=
  match label with
  | .ok label => .ok (openNode column label frames)
  | .error cause => fail frames cause

/-- Opens a jump; a token that is not its target is read as the next part of the node. -/
def openJump (column : Nat) (label : Text → Label) (t : Token) (frames : List Frame) :
    Except SyntaxError State :=
  if t.cls = .identifier then .ok (openNode column (label t.lexeme) frames)
  else
    let jump := label []
    stepInside t (.node column jump [] jump.fields) frames

/-- Reads the attribute of a node of a kind. -/
def stepAttribute (t : Token) (column : Nat) (kind : Kind) (frames : List Frame) :
    Except SyntaxError State :=
  let opened := openWith column frames
  match kind with
  | .identifierExpression => opened ((nameOf t).map .identifierExpression)
  | .bindingIdentifier => opened ((nameOf t).map .bindingIdentifier)
  | .functionDeclaration => opened ((nameOf t).map .functionDeclaration)
  | .staticMemberExpression => opened ((nameOf t).map .staticMemberExpression)
  | .breakStatement => openJump column .breakStatement t frames
  | .continueStatement => openJump column .continueStatement t frames
  | .binaryExpression => opened ((operatorOf t).map .binaryExpression)
  | .unaryExpression => opened ((operatorOf t).map .unaryExpression)
  | .numericLiteral =>
    if t.cls = .operator ∧ t.lexeme = Text.ofString "-" then .ok (.magnitude column frames)
    else if t.isWord "Infinity" then opened (.ok (.numericLiteral (.inf false)))
    else if t.isWord "NaN" then opened (.ok (.numericLiteral .nan))
    else if t.cls = .number then opened (.ok (.numericLiteral (numberValue t.lexeme)))
    else fail frames (.expected "number" t)
  | .stringLiteral =>
    if t.cls = .string then opened ((stringOf t).map .stringLiteral)
    else fail frames (.expected TokenClass.string.name t)
  | .booleanLiteral =>
    if t.isWord "true" then opened (.ok (.booleanLiteral true))
    else if t.isWord "false" then opened (.ok (.booleanLiteral false))
    else fail frames (.expected "boolean" t)
  | kind => stepInside t (.node column (.blank kind) [] kind.fields) frames

/-- Reads one token. -/
def step (t : Token) : State → Except SyntaxError State
  | .start =>
    if t.cls = .openParen then .ok (.kind t.column [])
    else fail [] (.expected TokenClass.openParen.name t)
  | .kind column frames =>
    if t.cls = .identifier then
      match Kind.ofName? t.lexeme with
      | some kind => .ok (.attribute column kind frames)
      | none => fail frames (.unknownKind t)
    else fail frames (.expected TokenClass.identifier.name t)
  | .attribute column kind frames => stepAttribute t column kind frames
  | .magnitude column frames =>
    if t.isWord "Infinity" then .ok (openNode column (.numericLiteral (.inf true)) frames)
    else fail frames (.expected "number" t)
  | .inside frame frames => stepInside t frame frames
  | .finished _ => fail [] (.expected TokenClass.endOfInput.name t)

/-- Reads tokens to the end. -/
def readTokens : State → List Token → Except SyntaxError Tree
  | .finished tree, [] => .ok tree
  | state, [] =>
    match step .atEnd state with
    | .ok _ => fail [] (.unexpected .atEnd)
    | .error e => .error e
  | state, t :: rest =>
    match step t state with
    | .ok next => readTokens next rest
    | .error e => .error e

end SExpression

/-- Reads a single tree from its s-expression. -/
def Tree.read (t : Text) : Except SExpression.SyntaxError Tree :=
  match SExpression.scan t with
  | .ok tokens => SExpression.readTokens .start tokens
  | .error column => .error ⟨[], .noToken column⟩

end ScriptSimplifier
