import ScriptSimplifier.Numeric.Numeral

/-! # Tokens of s-expressions

Scanning cuts a text into tokens, always taking the longest one; blanks and comments separate
tokens.  `scan` reports the column where no token fits. -/

namespace ScriptSimplifier

namespace SExpression

/-- The classes of tokens. -/
inductive TokenClass where
  | endOfInput
  | openParen
  | closeParen
  | openBracket
  | closeBracket
  | number
  | string
  | identifier
  | operator
  deriving Repr, DecidableEq

/-- What messages call a class of tokens. -/
def TokenClass.name : TokenClass → Text
  | .endOfInput => "end of input"
  | .openParen => "'('"
  | .closeParen => "')'"
  | .openBracket => "'['"
  | .closeBracket => "']'"
  | .number => "number"
  | .string => "string"
  | .identifier => "identifier"
  | .operator => "operator"

/-- A token with its text and the column of its first byte, counted from one in its line. -/
structure Token where
  cls : TokenClass
  lexeme : Text
  column : Nat
  deriving Repr, DecidableEq

namespace Token

/-- The token after the last one. -/
def atEnd : Token := ⟨.endOfInput, [], 0⟩

/-- What messages say about a token. -/
def shown (t : Token) : Text :=
  if t.cls = .endOfInput then t.cls.name
  else
    t.cls.name ++ Text.ofString " '" ++ t.lexeme ++ Text.ofString "' at column " ++
      Text.ofNat t.column

/-- An identifier with a given text. -/
def isWord (word : String) (t : Token) : Bool :=
  t.cls = .identifier && t.lexeme == Text.ofString word

end Token

/-! ## Matching the front of a text -/

/-- The operators, each before those that are its beginning. -/
def operators : List Text :=
  [">>>", "===", "!==", "<<", ">>", "==", "!=", "<=", ">=", "||", "&&", "+", "-", "*", "/", "%",
   "^", "|", "&", "<", ">", "!", "~", ","].map Text.ofString

/-- A byte that separates tokens. -/
def isSeparator (b : UInt8) : Bool :=
  b == Text.ascii ' ' || b == Text.ascii '\t' || b == Text.ascii '\n' || b == Text.ascii '\r'

/-- The length of a quoted string after its opening quote, the closing quote included. -/
def stringLength? : Text → Option Nat
  | [] => none
  | [b] => if b == Text.ascii '"' then some 1 else none
  | b :: c :: rest =>
    if b == Text.ascii '"' then some 1
    else if b == Text.ascii '\\' then (stringLength? rest).map (· + 2)
    else (stringLength? (c :: rest)).map (· + 1)

/-- The length of a comment after its semicolon, the end of the line included. -/
def commentLength : Text → Nat
  | [] => 0
  | b :: rest => if b == Text.ascii '\n' then 1 else commentLength rest + 1

/-- The length of a number with an optional minus sign. -/
def numberLength? (t : Text) : Option Nat :=
  match t with
  | b :: rest =>
    if b == Text.ascii '-' then
      (Numeral.scan? rest).map fun (_, after) => rest.length - after.length + 1
    else (Numeral.scan? t).map fun (_, after) => t.length - after.length
  | [] => none

/-- The class of a bracket. -/
def bracketClass? (b : UInt8) : Option TokenClass :=
  if b == Text.ascii '(' then some .openParen
  else if b == Text.ascii ')' then some .closeParen
  else if b == Text.ascii '[' then some .openBracket
  else if b == Text.ascii ']' then some .closeBracket
  else none

/-- What stands at the front of a text: the class of a token, none for what is skipped, and the
length. -/
def front? (b : UInt8) (rest : Text) : Option (Option TokenClass × Nat) :=
  if b == Text.ascii ';' then some (none, commentLength rest + 1)
  else if isSeparator b then some (none, (rest.takeWhile isSeparator).length + 1)
  else if b == Text.ascii '"' then (stringLength? rest).map fun n => (some .string, n + 1)
  else if Text.isIdentifierStart b then
    some (some .identifier, (rest.takeWhile Text.isIdentifierPart).length + 1)
  else
    match bracketClass? b, numberLength? (b :: rest) with
    | some cls, _ => some (some cls, 1)
    | none, some n => some (some .number, n)
    | none, none =>
      (operators.find? (·.isPrefixOf (b :: rest))).map fun op => (some .operator, op.length)

/-! ## Scanning -/

/-- The column after a byte. -/
def nextColumn (column : Nat) (b : UInt8) : Nat := if b == Text.ascii '\n' then 0 else column + 1

/-- The tokens of a text that starts after a column and of which the first `skip` bytes are
already taken; or the column where no token fits. -/
def scanFrom : (column skip : Nat) → Text → Except Nat (List Token)
  | _, _, [] => .ok []
  | column, skip + 1, b :: rest => scanFrom (nextColumn column b) skip rest
  | column, 0, b :: rest =>
    match front? b rest with
    | none => .error (nextColumn column b)
    | some (cls?, length) => do
      let tokens ← scanFrom (nextColumn column b) (length - 1) rest
      match cls? with
      | none => return tokens
      | some cls => return ⟨cls, (b :: rest).take length, nextColumn column b⟩ :: tokens

/-- The tokens of a text, or the column where no token fits. -/
def scan (t : Text) : Except Nat (List Token) := scanFrom 0 0 t

end SExpression

end ScriptSimplifier
