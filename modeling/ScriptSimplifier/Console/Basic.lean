import ScriptSimplifier.Console.Command
import ScriptSimplifier.Console.Notice
import ScriptSimplifier.Optimizer
import ScriptSimplifier.SExpression.Writer
import ScriptSimplifier.Syntax.Listing
import ScriptSimplifier.Syntax.SourceDifference

/-! # The console

The console works on one tree at a time: a line enters a tree, simplifies it or shows it.  A tree
that cannot be read or is not valid leaves the console as it was; a pass that fails has still
worked on the tree, and its statistics are kept. -/

namespace ScriptSimplifier

/-- The tree under work. -/
structure Subject where
  /-- The tree as it was entered, as an s-expression. -/
  entered : Text
  workspace : Workspace
  root : Option Ref
  /-- The statistics of the last pass since the tree was entered. -/
  stats : Option Stats := none

/-- The state of the console. -/
structure Console where
  options : Options
  /-- How many steps a pass is given. -/
  patience : Nat := Pass.patience
  subject : Option Subject := none

/-- Why a file has no content. -/
inductive FileError where
  | missing
  | directory
  /-- It cannot be opened for the given reason. -/
  | closed (reason : Text)
  deriving Repr, DecidableEq

/-- The files that the console can read. -/
abbrev Files := Text → Except FileError Text

/-- Why a line was not carried out, or not to its end. -/
inductive ConsoleError where
  | unreadable (error : SExpression.SyntaxError)
  | invalid (invalid : Invalid)
  /-- There is no tree to work on. -/
  | noTree
  /-- The arguments do not fit the command, which is used as shown. -/
  | usage (form : Text)
  | file (name : Text) (error : FileError)
  | noSimplification (name : Text)
  | unknownCommand (name : Text)
  | pass (error : PassError)
  | fault (fault : Fault)
  deriving Repr, DecidableEq

/-- The text for a file without content. -/
def FileError.message (name : Text) : FileError → Text
  | .missing => Text.ofString "open " ++ name ++ Text.ofString ": no such file or directory"
  | .directory => Text.ofString "read " ++ name ++ Text.ofString ": is a directory"
  | .closed reason => Text.ofString "open " ++ name ++ Text.ofString ": " ++ reason

/-- The text of an error. -/
def ConsoleError.message : ConsoleError → Text
  | .unreadable error => error.message
  | .invalid cause => cause.message
  | .noTree => "no tree; enter one in s-expression notation first"
  | .usage form => Text.ofString "usage: " ++ form
  | .file name error => error.message name
  | .noSimplification name =>
    Text.ofString "no rule named " ++ name.quote ++ Text.ofString ", see :rules"
  | .unknownCommand name => Text.ofString "unknown command " ++ name
  | .pass error => error.message
  | .fault cause => cause.message?.getD []

/-- How a line ended. -/
inductive Outcome where
  | done
  /-- The session is to end. -/
  | quit
  | failed (error : ConsoleError)
  deriving Repr, DecidableEq

/-- The answer to a line: what is printed, how it ended, and the console after it. -/
structure Reply where
  console : Console
  output : Text := []
  outcome : Outcome := .done

namespace Subject

/-- The tree as it is now. -/
def tree (s : Subject) : Tree := s.workspace.store.tree s.root

/-- The tree that an s-expression spells, in a workspace of its own. -/
def ofText (t : Text) : Except ConsoleError Subject :=
  match Tree.read t with
  | .error error => .error (.unreadable error)
  | .ok tree =>
    match tree.invalid? with
    | some invalid => .error (.invalid invalid)
    | none =>
      let (root, store) := Store.empty.plant tree
      .ok { entered := tree.toSExpression, workspace := .ofStore store, root }

end Subject

namespace Console

/-- An answer that prints a text, if there is one. -/
def say (c : Console) : Option Text → Reply
  | some output => { console := c, output }
  | none => { console := c, outcome := .failed (.fault .outOfRange) }

/-- An answer that is an error. -/
def refuse (c : Console) (error : ConsoleError) : Reply :=
  { console := c, outcome := .failed error }

/-- A text as it is printed with a line feed after it. -/
def printedLine (t : Text) : Text := Styling.plain (t ++ Text.ofString "\n")

/-- A listing as it is printed: no entry carries a style, nor does the drawing. -/
def printedListing (entries : List Entry) : Text :=
  Styling.plain (Listing.draw (entries.map fun e => { e with text := Styling.unstyled e.text }))

/-- The source of a tree as a notice. -/
def sourceNotice (s : Subject) : Option Text := s.tree.source?.map Notice.info.write

/-- Makes the tree that a text spells the one under work. -/
def enter (c : Console) (t : Text) : Except ConsoleError Console :=
  (Subject.ofText t).map fun s => { c with subject := some s }

/-- Enters a tree and shows its source. -/
def enterAndShow (c : Console) (t : Text) : Reply :=
  match Subject.ofText t with
  | .error error => c.refuse error
  | .ok s => say { c with subject := some s } (sourceNotice s)

/-- The answer to a pass with its statistics: the source, if the pass changed it. -/
def settle (c : Console) (s : Subject) (workspace : Workspace) (stats : Stats) : Reply :=
  let s := { s with workspace, stats := some stats }
  say { c with subject := some s }
    (if stats.changed then sourceNotice s else some (Notice.info.write "no changes"))

/-- The answer to a pass, with the error that ended it; it comes after what is printed. -/
def reportOf (c : Console) (s : Subject) (workspace : Workspace) : Report → Reply
  | .done stats => c.settle s workspace stats
  | .unfinished stats => c.settle s workspace stats
  | .failed stats error =>
    let reply := c.settle s workspace stats
    if reply.outcome = .done then { reply with outcome := .failed (.pass error) } else reply
  | .fault cause =>
    { console := { c with subject := some { s with workspace } }
      outcome := .failed (.fault cause) }

/-- Runs a pass of simplifications on the tree. -/
def simplify (c : Console) (s : Subject) (name : Text) (simplifications : List Simplification) :
    Reply :=
  let pass := c.options.pass name simplifications
  let processed := pass.process c.patience s.workspace () s.root
  c.reportOf s processed.workspace processed.report

/-- Carries out a request about the tree. -/
def serve (c : Console) (s : Subject) : Request → Reply
  | .phaseOne => c.simplify s "phase-1" Simplification.phaseOne
  | .phaseTwo => c.simplify s "phase-2" Simplification.phaseTwo
  | .optimize =>
    let (workspace, report) := c.options.optimize c.patience s.workspace s.root
    c.reportOf s workspace report
  | .simplify [name] =>
    match Simplification.ofName? name with
    | some simplification => c.simplify s simplification.name [simplification]
    | none => c.refuse (.noSimplification name)
  | .simplify _ => c.refuse (.usage ":rule <name>")
  | .draw => c.say (s.tree.entries?.map printedListing)
  | .source => c.say (sourceNotice s)
  | .sExpression => c.say (some (printedLine s.tree.toIndented))
  | .compare =>
    match Tree.read s.entered with
    | .error error => c.refuse (.unreadable error)
    | .ok before => c.say <| (before.compareSources? .colours s.tree).map fun (text, changed) =>
      if changed then printedLine text else Notice.info.write "no changes"
  | .statistics =>
    let text : Text :=
      match s.stats with
      | some stats => stats.shown
      | none => "no optimization run yet"
    c.say (some (Notice.info.write text))
  | .reset =>
    match c.enter s.entered with
    | .ok c => { console := c }
    | .error error => c.refuse error
  | .unknown name => c.refuse (.unknownCommand name)

/-- Carries out a command. -/
def perform (files : Files) (c : Console) : Command → Reply
  | .enter t => c.enterAndShow t
  | .quit => { console := c, outcome := .quit }
  | .simplifications =>
    c.say (some (Simplification.all.flatMap fun s => printedLine s.name))
  | .load [name] =>
    match files name with
    | .ok content => c.enterAndShow content
    | .error error => c.refuse (.file name error)
  | .load _ => c.refuse (.usage ":load <file>")
  | .onTree request =>
    match c.subject with
    | some s => c.serve s request
    | none => c.refuse .noTree

/-- Carries out a line. -/
def eval (files : Files) (c : Console) (line : Text) : Reply :=
  match Command.ofLine? line with
  | some command => c.perform files command
  | none => c.refuse (.fault .outOfRange)

end Console

end ScriptSimplifier
