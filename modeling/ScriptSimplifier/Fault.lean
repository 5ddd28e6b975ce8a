import ScriptSimplifier.Edit
import ScriptSimplifier.SExpression.Reader
import ScriptSimplifier.Value.Datum

/-! # Faults

A fault is a mistake of whoever drives the simplifier, such as a rule that builds an impossible
edit.  It is not an answer about a tree, and ends what was going on. -/

namespace ScriptSimplifier

/-- What went wrong. -/
inductive Fault where
  /-- An element was put where it cannot stand. -/
  | misplaced (fault : ChildFault)
  /-- A fragment was asked for without a value. -/
  | notConstant
  /-- A node to be put in place cannot be read. -/
  | unreadable (error : SExpression.SyntaxError)
  /-- An error was turned into a fault on request. -/
  | raised (message : Text)
  /-- A position, or a part of a tree that is needed, does not exist. -/
  | outOfRange
  deriving Repr, DecidableEq

/-- The text of a fault that has one. -/
def Fault.message? : Fault → Option Text
  | .misplaced fault => some fault.message
  | .notConstant =>
    some (Text.ofString "cannot create canonical fragment: " ++ NotConstant.reason)
  | .unreadable error => some error.message
  | .raised message => some message
  | .outOfRange => none

end ScriptSimplifier
