import ScriptSimplifier.Pass.Run
import ScriptSimplifier.Syntax.Fingerprint

/-! # Processing a tree

`Pass.process` runs a pass on the tree at a root and reports the statistics, also if the pass
failed.  A fault leaves no report. -/

namespace ScriptSimplifier

/-- The outcome of a pass. -/
inductive Report where
  /-- The pass ended in order. -/
  | done (stats : Stats)
  /-- The pass failed. -/
  | failed (stats : Stats) (error : PassError)
  /-- A fault ended the pass. -/
  | fault (fault : Fault)
  /-- The pass was stopped after the steps it was given. -/
  | unfinished (stats : Stats)
  deriving Repr

/-- The statistics of a report. -/
def Report.stats? : Report → Option Stats
  | .done stats => some stats
  | .failed stats _ => some stats
  | .fault _ => none
  | .unfinished stats => some stats

/-- A pass's outcome with the workspace and the memory that it leaves. -/
structure Processed (σ : Type) where
  workspace : Workspace
  memory : σ
  report : Report

/-- Steps enough for every pass that ends in practice. -/
def Pass.patience : Nat := 1000000000000000

namespace Pass

variable {σ : Type}

/-- The report for an error of a rule. -/
def failure (pass : Pass σ) (stats : Stats) (error : RuleError) : Report :=
  let error := PassError.rule pass.name error
  if pass.raises then .fault (.raised error.message) else .failed stats error

/-- The report for a run that ended, given the fingerprint of the tree it leaves. -/
def reportOf (pass : Pass σ) (stats : Stats) (ending : Option Ending) : Report :=
  match ending with
  | none => .unfinished stats
  | some .finished => .done stats
  | some (.failed error) => pass.failure stats error
  | some (.fault fault) => .fault fault

/-- Runs a pass on the tree at a root, with at most `fuel` steps. -/
def process (pass : Pass σ) (fuel : Nat) (w : Workspace) (memory : σ) (root : Option Ref) :
    Processed σ :=
  match root with
  | none => ⟨w, memory, .failed {} (.noTree pass.name)⟩
  | some root =>
    let tree := w.store.tree (some root)
    match tree.fingerprint?, if pass.validates then tree.invalid? else none with
    | none, _ => ⟨w, memory, .fault .outOfRange⟩
    | some before, some invalid =>
      ⟨w, memory, .failed { before } (.invalidBefore pass.name invalid)⟩
    | some before, none =>
      let (run, ending) := (Run.start w memory root before).steps pass root fuel
      let report :=
        match ending, (run.workspace.store.tree (some root)).fingerprint? with
        | some (.fault fault), _ => .fault fault
        | _, none => .fault .outOfRange
        | ending, some after => pass.reportOf { run.stats with after } ending
      ⟨run.workspace, run.memory, report⟩

end Pass

end ScriptSimplifier
