import ScriptSimplifier.Rule.Basic
import ScriptSimplifier.Syntax.Validity

/-! # Passes

A pass is a list of rules with options.  It applies them to a tree until none of them proposes
anything any more. -/

namespace ScriptSimplifier

/-- A named list of rules, tried in order, and the options of their application. -/
structure Pass (σ : Type) where
  name : Text
  rules : List (Rule σ)
  /-- Whether the tree is checked before the pass and after every edit. -/
  validates : Bool := false
  /-- How many edits may be applied; none for any number. -/
  limit : Option Nat := none
  /-- Whether an error of a rule ends the program instead of the pass. -/
  raises : Bool := false

/-- A limit as it is asked for: numbers that are not positive mean that there is none. -/
def Pass.limitOf (n : Int) : Option Nat := if 0 < n then some n.toNat else none

/-- Why the application of rules stopped. -/
inductive RuleError where
  /-- The edit of a rule was refused. -/
  | refused (rule : Text) (error : EditError)
  /-- The edit of a rule left an invalid tree. -/
  | invalidAfter (rule : Text) (invalid : Invalid)
  /-- A rule proposed one more edit than the limit allows. -/
  | limit (operations : Nat) (rule : Text) (place : Text)
  deriving Repr, DecidableEq

/-- Why a pass failed. -/
inductive PassError where
  /-- There was no tree. -/
  | noTree (pass : Text)
  /-- The tree was invalid from the start. -/
  | invalidBefore (pass : Text) (invalid : Invalid)
  | rule (pass : Text) (error : RuleError)
  deriving Repr, DecidableEq

/-- The text of an error of a rule. -/
def RuleError.message : RuleError → Text
  | .refused rule error =>
    Text.ofString "rule " ++ rule ++ Text.ofString ": " ++ error.message
  | .invalidAfter rule invalid =>
    Text.ofString "after rule " ++ rule ++ Text.ofString ": " ++ invalid.message
  | .limit operations rule place =>
    Text.ofString "operation limit exceeded: " ++ Text.ofNat operations ++
      Text.ofString " operations, rule " ++ rule ++ Text.ofString " at " ++ place

/-- The text of an error of a pass. -/
def PassError.message : PassError → Text
  | .noTree pass => about pass (Violation.reason ++ Text.ofString ": empty tree")
  | .invalidBefore pass invalid => about pass invalid.message
  | .rule pass error => about pass error.message
where
  about (pass t : Text) : Text := Text.ofString "pipeline " ++ pass ++ Text.ofString ": " ++ t

end ScriptSimplifier
