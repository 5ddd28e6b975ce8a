import ScriptSimplifier.SExpression.Token
import ScriptSimplifier.Syntax.Tree

/-!
# The grammar of expressions

This is the expression grammar of ECMAScript for the expressions that trees can hold.  A text is cut
into symbols, always taking the longest one, and `Derives` says which sequences of symbols are
expressions of a rank and which trees they stand for.  The ranks go from the comma to the parts that
need no parentheses anywhere; `ladder` lists the binary operators of each.  Nothing here depends on
how the printer decides about parentheses.
-/

namespace ScriptSimplifier

namespace Grammar

/-! ## Symbols -/

/-- A symbol of source text. -/
inductive Symbol where
  | word (name : Text)
  | number (x : Double)
  | string (t : Text)
  | sign (t : Text)
  deriving Repr, DecidableEq

/-- The signs, each before those that are its beginning.  Two of them open comments and belong to no
expression. -/
def signs : List Text :=
  [">>>=", "...", "===", "!==", "**=", "<<=", ">>=", ">>>", "&&=", "||=", "??=", "=>", "==", "!=",
   "<=", ">=", "&&", "||", "??", "?.", "++", "--", "+=", "-=", "*=", "/=", "%=", "&=", "|=", "^=",
   "<<", ">>", "**", "//", "/*", "(", ")", "[", "]", "\x7b", "\x7d", ".", ";", ",", "<", ">", "+",
   "-", "*", "/", "%", "&", "|", "^", "!", "~", "?", ":", "="].map Text.ofString

/-- The symbol at the front of a text that starts with a byte, and its length.  A name goes as far
as it can, and a number must not run into one. -/
def front? (b : UInt8) (rest : Text) : Option (Symbol × Nat) :=
  if Text.isIdentifierStart b then
    let name := b :: rest.takeWhile Text.isIdentifierPart
    some (.word name, name.length)
  else if b == Text.ascii '"' then do
    let length ← SExpression.stringLength? rest
    let content ← Text.unquote? ((b :: rest).take (length + 1))
    return (.string content, length + 1)
  else
    match Numeral.scan? (b :: rest) with
    | some (n, after) =>
      if after.head?.any Text.isIdentifierPart then none
      else some (.number (n.toDecimal.toDouble false), (b :: rest).length - after.length)
    | none => (signs.find? (·.isPrefixOf (b :: rest))).map fun s => (.sign s, s.length)

/-- The symbols of a text of which the first `skip` bytes are already taken, if it can be cut into
symbols; blanks separate them. -/
def symbolsFrom : (skip : Nat) → Text → Option (List Symbol)
  | _, [] => some []
  | skip + 1, _ :: rest => symbolsFrom skip rest
  | 0, b :: rest =>
    if SExpression.isSeparator b then symbolsFrom 0 rest
    else
      match front? b rest with
      | none => none
      | some (symbol, length) => (symbolsFrom (length - 1) rest).map (symbol :: ·)

/-- The symbols of a text. -/
def symbols? (t : Text) : Option (List Symbol) := symbolsFrom 0 t

/-! ## Operators and names -/

/-- The binary operators by rank; a greater rank binds tighter.  The comma is the loosest, and the
two ranks behind it are those of assignments and conditionals. -/
def ladder : List (List Text) :=
  [[","], [], [], ["||"], ["&&"], ["|"], ["^"], ["&"], ["==", "!=", "===", "!=="],
   ["<", "<=", ">", ">=", "in", "instanceof"], ["<<", ">>", ">>>"], ["+", "-"],
   ["*", "/", "%"]].map (·.map Text.ofString)

/-! ### Ranks

A sequence is loosest, then come assignments, conditionals and their tests, unary operations, what
may be called or have a property, and what needs no parentheses anywhere. -/

def sequence : Nat := 0
def assignment : Nat := 1
def conditional : Nat := 2
def disjunction : Nat := 3
def unary : Nat := 13
def leftHand : Nat := 14
def primary : Nat := 15

/-! ### Words and signs -/

/-- The operators of unary operations. -/
def unaryOperators : List Text := ["+", "-", "~", "!", "typeof", "void"].map Text.ofString

/-- The words that are no names. -/
def reserved : List Text :=
  ["break", "case", "catch", "class", "const", "continue", "debugger", "default", "delete", "do",
   "else", "enum", "export", "extends", "false", "finally", "for", "function", "if", "import", "in",
   "instanceof", "new", "null", "return", "super", "switch", "this", "throw", "true", "try",
   "typeof", "var", "void", "while", "with"].map Text.ofString

/-- The symbol of an operator: some operators are words. -/
def operator (op : Text) : Symbol :=
  if op.head?.any Text.isIdentifierStart then .word op else .sign op

/-- A sign with a given text. -/
def sign (s : String) : Symbol := .sign (Text.ofString s)

/-! ## Expressions -/

/-- The symbols are an expression of at least the given rank, and it stands for the tree.  Binary
operators associate to the left, conditionals and assignments to the right. -/
inductive Derives : Nat → List Symbol → Tree → Prop
  | identifier {name : Text} (h : name ∉ reserved) :
      Derives primary [.word name] (.node (.identifierExpression name) [])
  | number (x : Double) : Derives primary [.number x] (.node (.numericLiteral x) [])
  | string (t : Text) : Derives primary [.string t] (.node (.stringLiteral t) [])
  | boolean (b : Bool) :
      Derives primary [.word (Text.ofString (if b then "true" else "false"))]
        (.node (.booleanLiteral b) [])
  | null : Derives primary [.word (Text.ofString "null")] (.node .nullLiteral [])
  | group {symbols : List Symbol} {t : Tree} (h : Derives sequence symbols t) :
      Derives primary (sign "(" :: symbols ++ [sign ")"]) t
  | call {symbols : List Symbol} {callee : Tree} {arguments : List (List Symbol × Tree)}
      (hcallee : Derives leftHand symbols callee)
      (harguments : ∀ a ∈ arguments, Derives assignment a.1 a.2) :
      Derives leftHand
        (symbols ++ sign "(" :: [sign ","].intercalate (arguments.map (·.1)) ++ [sign ")"])
        (.node .callExpression [callee, .list (arguments.map (·.2))])
  | member {symbols : List Symbol} {object : Tree} {property : Text}
      (h : Derives leftHand symbols object) :
      Derives leftHand (symbols ++ [sign ".", .word property])
        (.node (.staticMemberExpression property) [object])
  | unary {symbols : List Symbol} {t : Tree} {op : Text} (hop : op ∈ unaryOperators)
      (h : Derives unary symbols t) :
      Derives unary (operator op :: symbols) (.node (.unaryExpression op) [t])
  | binary {rank : Nat} {before after : List Symbol} {left right : Tree} {op : Text}
      (hop : ∃ ops, ladder[rank]? = some ops ∧ op ∈ ops) (hleft : Derives rank before left)
      (hright : Derives (rank + 1) after right) :
      Derives rank (before ++ operator op :: after) (.node (.binaryExpression op) [left, right])
  | conditional {first second third : List Symbol} {test consequent alternate : Tree}
      (htest : Derives disjunction first test) (hconsequent : Derives assignment second consequent)
      (halternate : Derives assignment third alternate) :
      Derives conditional (first ++ sign "?" :: second ++ sign ":" :: third)
        (.node .conditionalExpression [test, consequent, alternate])
  | assignment {before after : List Symbol} {binding value : Tree}
      (hbinding : Derives leftHand before binding) (hvalue : Derives assignment after value) :
      Derives assignment (before ++ sign "=" :: after)
        (.node .assignmentExpression [binding, value])
  | tighter {rank : Nat} {symbols : List Symbol} {t : Tree} (h : Derives (rank + 1) symbols t) :
      Derives rank symbols t

/-- A text is an expression that stands for a tree. -/
def Reads (text : Text) (t : Tree) : Prop :=
  ∃ symbols, symbols? text = some symbols ∧ Derives sequence symbols t

end Grammar

end ScriptSimplifier
