import ScriptSimplifier.Console.Session
import ScriptSimplifier.Console.Settings

/-! # The command line

Reads lines from standard input, has the console carry them out and prints what it answers. -/

namespace ScriptSimplifier.Main

/-- Writes a text as it is. -/
def put (stream : IO.FS.Stream) (t : Text) : IO Unit := do
  stream.write ⟨t.toArray⟩
  stream.flush

/-- The content of a file. -/
def readFile (name : Text) : IO (Except FileError Text) := do
  try
    let content ← IO.FS.readBinFile name.display
    return .ok content.toList
  catch e =>
    match e with
    | .noFileOrDirectory .. => return .error .missing
    | .inappropriateType .. => return .error .directory
    | e => return .error (.closed (Text.ofString (toString e)))

/-- Carries out a line, with the file that it reads. -/
def eval (console : Console) (line : Text) : IO Reply := do
  match (Command.ofLine? line).bind Command.file? with
  | some name =>
    let content ← readFile name
    return console.eval (fun _ => content) line
  | none => return console.eval (fun _ => .error .missing) line

/-- Carries out the lines of a start file and prints what they print, errors apart. -/
def start (output : IO.FS.Stream) : Console → List Text → IO Console
  | console, [] => return console
  | console, line :: rest => do
    let reply ← eval console line
    put output reply.output
    start output reply.console rest

/-- Carries out lines until the input ends or one of them ends the session. -/
partial def interact (input output : IO.FS.Stream) (console : Console) : IO Unit := do
  put output "orepl> "
  let line ← input.getLine
  if line.isEmpty then return
  match Console.sessionLines [Text.ofString line] with
  | [] => interact input output console
  | line :: _ =>
    let reply ← eval console line
    put output reply.printed
    if reply.outcome = .quit then return
    interact input output reply.console

/-- Runs the console with settings; gives the exit status. -/
def run (settings : Settings) : IO UInt32 := do
  let input ← IO.getStdin
  let output ← IO.getStdout
  put output (Notice.info.write "Welcome to OREPL")
  let console := settings.console
  match if settings.tree.isEmpty then .ok console else console.enter settings.tree with
  | .error error =>
    put (← IO.getStderr) (error.message ++ Text.ofString "\n")
    return 2
  | .ok console =>
    let content ← if settings.startFile.isEmpty then pure (.ok []) else readFile settings.startFile
    let console ← start output console (Console.startLines content)
    interact input output console
    put (← IO.getStderr) "Good bye!\n"
    return 0

/-- Runs the console with the settings that arguments spell; gives the exit status. -/
def launch (arguments : List String) : IO UInt32 := do
  match Settings.ofArguments (arguments.map Text.ofString) with
  | .ok settings => run settings
  | .error .help =>
    put (← IO.getStderr) Settings.usage
    return 0
  | .error error =>
    put (← IO.getStderr) (error.message ++ Text.ofString "\n" ++ Settings.usage)
    return 2

end ScriptSimplifier.Main

/-- Starts the console. -/
def main (arguments : List String) : IO UInt32 := ScriptSimplifier.Main.launch arguments
