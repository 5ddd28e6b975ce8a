import ScriptSimplifier.Text.Blank

/-! # Commands

A line for the console is a command if it starts with a colon, and a tree otherwise.  The words of
a command are its name and its arguments. -/

namespace ScriptSimplifier

/-- A command that needs a tree. -/
inductive Request where
  | phaseOne
  | phaseTwo
  | optimize
  /-- To apply one simplification. -/
  | simplify (arguments : List Text)
  /-- To draw the listing of the tree. -/
  | draw
  | source
  | sExpression
  /-- To compare the tree with the one that was entered. -/
  | compare
  | statistics
  /-- To start again with the tree that was entered. -/
  | reset
  | unknown (name : Text)
  deriving Repr, DecidableEq

/-- What a line asks for. -/
inductive Command where
  /-- To read a tree. -/
  | enter (tree : Text)
  | quit
  /-- To name the simplifications. -/
  | simplifications
  /-- To read a tree from a file. -/
  | load (arguments : List Text)
  | onTree (request : Request)
  deriving Repr, DecidableEq

/-- The requests that take no arguments, by name; they ignore what follows. -/
def Request.named : List (String × Request) :=
  [(":phase1", .phaseOne), (":phase2", .phaseTwo), (":opt", .optimize), (":tree", .draw),
    (":src", .source), (":sexpr", .sExpression), (":diff", .compare), (":stats", .statistics),
    (":reset", .reset)]

/-- The request with a name and arguments. -/
def Request.ofWords (name : Text) (arguments : List Text) : Request :=
  if name = Text.ofString ":rule" then .simplify arguments
  else
    match named.find? (Text.ofString ·.1 == name) with
    | some (_, request) => request
    | none => .unknown name

/-- The command with a name and arguments. -/
def Command.ofWords (name : Text) (arguments : List Text) : Command :=
  if name = Text.ofString ":quit" ∨ name = Text.ofString ":q" then .quit
  else if name = Text.ofString ":rules" then .simplifications
  else if name = Text.ofString ":load" then .load arguments
  else .onTree (.ofWords name arguments)

/-- What a line asks for.  A line that starts with a colon has to have a first word. -/
def Command.ofLine? (line : Text) : Option Command :=
  if line.head? = some (Text.ascii ':') then
    match line.words with
    | name :: arguments => some (.ofWords name arguments)
    | [] => none
  else some (.enter line)

/-- The file that a command reads. -/
def Command.file? : Command → Option Text
  | .load [name] => some name
  | _ => none

end ScriptSimplifier
