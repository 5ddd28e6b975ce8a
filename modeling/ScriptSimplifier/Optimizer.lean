import ScriptSimplifier.Pass.Process
import ScriptSimplifier.Rule.Catalog

/-! # The optimizer

The optimizer runs the phases of the catalog one after the other on a tree, sharing one pool of
constants.  A phase that fails is the last one. -/

namespace ScriptSimplifier

/-- The options of every phase. -/
structure Options where
  validates : Bool := false
  limit : Option Nat := none
  raises : Bool := false

/-- A pass of simplifications with options. -/
def Options.pass (o : Options) (name : Text) (simplifications : List Simplification) :
    Pass Unit where
  name := name
  rules := simplifications.map Simplification.rule
  validates := o.validates
  limit := o.limit
  raises := o.raises

/-- The phases of the optimizer as passes. -/
def Options.phases (o : Options) : List (Pass Unit) :=
  Simplification.phases.zipIdx.map fun (phase, i) =>
    o.pass (Text.ofString "phase-" ++ Text.ofNat (i + 1)) phase

/-- The report of a later pass together with the statistics of those before it. -/
def Report.after (earlier : Stats) : Report → Report
  | .done stats => .done (earlier.add stats)
  | .failed stats error => .failed (earlier.add stats) error
  | .fault cause => .fault cause
  | .unfinished stats => .unfinished (earlier.add stats)

/-- Runs passes in order, as long as they end well. -/
def runPasses (fuel : Nat) (root : Option Ref) :
    List (Pass Unit) → Stats → Workspace → Workspace × Report
  | [], total, w => (w, .done total)
  | pass :: rest, total, w =>
    let processed := pass.process fuel w () root
    match processed.report.after total with
    | .done total => runPasses fuel root rest total processed.workspace
    | report => (processed.workspace, report)

/-- Optimizes the tree at a root. -/
def Options.optimize (o : Options) (fuel : Nat) (w : Workspace) (root : Option Ref) :
    Workspace × Report :=
  runPasses fuel root o.phases {} w

end ScriptSimplifier
