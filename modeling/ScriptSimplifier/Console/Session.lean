import ScriptSimplifier.Console.Basic

/-! # Sessions

A session carries out lines one after the other.  White space around a line does not count, and
empty lines are passed over.  In an interactive session errors are printed and `:quit` ends it; a
start file is carried out silently in both respects. -/

namespace ScriptSimplifier

/-- What is printed for a line of an interactive session. -/
def Reply.printed (r : Reply) : Text :=
  match r.outcome with
  | .failed error => r.output ++ Notice.error.write error.message
  | _ => r.output

namespace Console

/-- The lines that are carried out. -/
def sessionLines (lines : List Text) : List Text := (lines.map Text.trim).filter (!·.isEmpty)

/-- Carries out lines until one of them ends the session; gives everything that is printed. -/
def interact (files : Files) : Console → List Text → Text × Console
  | c, [] => ([], c)
  | c, line :: rest =>
    let reply := c.eval files line
    if reply.outcome = .quit then (reply.printed, reply.console)
    else
      let (output, last) := interact files reply.console rest
      (reply.printed ++ output, last)

/-- An interactive session. -/
def session (files : Files) (c : Console) (lines : List Text) : Text × Console :=
  c.interact files (sessionLines lines)

/-- Carries out all lines; gives what they print, errors apart. -/
def replay (files : Files) : Console → List Text → Text × Console
  | c, [] => ([], c)
  | c, line :: rest =>
    let reply := c.eval files line
    let (output, last) := replay files reply.console rest
    (reply.output ++ output, last)

/-- The number of bytes at which a line of a start file is too long to be read. -/
def lineLimit : Nat := 65536

/-- The lines of a start file that are carried out: those before one that is too long.  A file that
cannot be read has no lines. -/
def startLines : Except FileError Text → List Text
  | .error _ => []
  | .ok content => sessionLines (content.lines.takeWhile (·.length < lineLimit))

/-- Carries out a start file. -/
def start (files : Files) (c : Console) (name : Text) : Text × Console :=
  c.replay files (startLines (files name))

end Console

end ScriptSimplifier
