import ScriptSimplifier.Pass.Basic
import ScriptSimplifier.Pass.Stats
import ScriptSimplifier.Walk

/-! # Running a pass

A run keeps a list of pending walks and goes on with the first of them.  Every place that a walk
visits is offered to the rules; after an edit, the places it touched are walked again before
anything else, and pending walks from the same roots are dropped.  The run ends when no walk is
left: then no rule proposes anything at any place. -/

namespace ScriptSimplifier

/-- A pending walk, known by the element it started from. -/
structure Task where
  root : Option Ref
  walk : Walk
  deriving Repr

/-- The state of a run. -/
structure Run (σ : Type) where
  workspace : Workspace
  memory : σ
  /-- The pending walks, the next one first. -/
  tasks : List Task
  stats : Stats

/-- How a run ended. -/
inductive Ending where
  | finished
  | failed (error : RuleError)
  | fault (fault : Fault)
  deriving Repr, DecidableEq

/-- What a step of a run leads to. -/
inductive Progress (σ : Type) where
  | going (run : Run σ)
  | ended (run : Run σ) (ending : Ending)

namespace Run

variable {σ : Type}

/-! ## Scheduling -/

/-- Schedules a walk from a place before all others. -/
def push (run : Run σ) (place : Cursor) : Run σ :=
  { run with
    tasks := ⟨place.element, .start run.workspace.store place⟩ :: run.tasks
    stats := { run.stats with tasks := run.stats.tasks + 1 } }

/-- Drops the pending walks from an element. -/
def discard (run : Run σ) (element : Option Ref) : Run σ :=
  let kept := run.tasks.filter (·.root != element)
  { run with
    tasks := kept
    stats := { run.stats with
      discarded := run.stats.discarded + (run.tasks.length - kept.length) } }

/-- The place to walk again for a place that an edit touched: a list is walked from its owner.  A
list without owner stays as it is. -/
def retraced (s : Store) : Cursor → Cursor
  | .root e => .root e
  | .step parent key e => if e.any s.isList then retraced s parent else .step parent key e

/-- The places to walk again after an edit, each element once, as they are now. -/
def tainted (s : Store) (edit : Edit) : List Cursor :=
  edit.invalidated.foldl (fun found place =>
    match (retraced s place).refresh? s with
    | none => found
    | some fresh =>
      if fresh.element.isNone || found.any (·.element == fresh.element) then found
      else found ++ [fresh]) []

/-- Schedules the walks that an applied edit makes necessary. -/
def reschedule (run : Run σ) (edit : Edit) : Run σ :=
  (tainted run.workspace.store edit).foldl
    (fun run place => (run.discard place.element).push place) run

/-! ## Offering a place to the rules -/

/-- The outcome of offering a place to rules. -/
inductive Offer (σ : Type) where
  | nothing (workspace : Workspace) (memory : σ)
  | edit (rule : Text) (edit : Edit) (workspace : Workspace) (memory : σ)
  | fault (fault : Fault) (workspace : Workspace) (memory : σ)

/-- Offers a place to rules in order, until one proposes an edit. -/
def offer (place : Cursor) (w : Workspace) (memory : σ) : List (Rule σ) → Offer σ
  | [] => .nothing w memory
  | rule :: rest =>
    match rule.propose place w memory with
    | .error fault => .fault fault w memory
    | .ok ⟨some edit, w, memory⟩ => .edit rule.name edit w memory
    | .ok ⟨none, w, memory⟩ => offer place w memory rest

/-- Applies the edit of a rule, unless the limit is reached. -/
def perform (pass : Pass σ) (root : Ref) (run : Run σ) (place : Cursor) (rule : Text)
    (edit : Edit) : Progress σ :=
  if pass.limit.any (· ≤ run.stats.operations) then
    let shown := place.shown run.workspace.store
    .ended run (.failed (.limit run.stats.operations rule shown))
  else
    match edit.apply (some run.workspace.pool) run.workspace.store with
    | (store, some (.refused error)) =>
      .ended { run with workspace := { run.workspace with store } } (.failed (.refused rule error))
    | (store, some (.fault fault)) =>
      .ended { run with workspace := { run.workspace with store } } (.fault (.misplaced fault))
    | (store, none) =>
      let run :=
        { run with
          workspace := { run.workspace with store }
          stats := run.stats.applied rule }
      match if pass.validates then (store.tree (some root)).invalid? else none with
      | some invalid => .ended run (.failed (.invalidAfter rule invalid))
      | none => .going (run.reschedule edit)

/-- Offers a visited place to the rules of a pass, as it is now.  A place that is no longer part of
the tree is skipped. -/
def dispatch (pass : Pass σ) (root : Ref) (run : Run σ) (place : Cursor) : Progress σ :=
  match place.refresh? run.workspace.store with
  | none => .going { run with stats := { run.stats with skipped := run.stats.skipped + 1 } }
  | some place =>
    let run := { run with stats := { run.stats with visits := run.stats.visits + 1 } }
    match offer place run.workspace run.memory pass.rules with
    | .nothing workspace memory => .going { run with workspace, memory }
    | .fault fault workspace memory => .ended { run with workspace, memory } (.fault fault)
    | .edit rule edit workspace memory =>
      perform pass root { run with workspace, memory } place rule edit

/-! ## Steps -/

/-- One step of a run: a motion of the first pending walk, and what follows from it. -/
def step (pass : Pass σ) (root : Ref) (run : Run σ) : Progress σ :=
  match run.tasks with
  | [] => .ended run .finished
  | task :: rest =>
    match task.walk.advance run.workspace.store with
    | none => .going { run with tasks := rest }
    | some (motion, walk) =>
      let run := { run with tasks := { task with walk } :: rest }
      match motion with
      | .visited place => dispatch pass root run place
      | _ => .going run

/-- Steps of a run until it ends, at most `fuel` of them; no ending is given if they do not
suffice. -/
def steps (pass : Pass σ) (root : Ref) : (fuel : Nat) → Run σ → Run σ × Option Ending
  | 0, run => (run, none)
  | fuel + 1, run =>
    match step pass root run with
    | .going run => steps pass root fuel run
    | .ended run ending => (run, some ending)

/-- A run at its start, with a walk through the whole tree. -/
def start (workspace : Workspace) (memory : σ) (root : Ref) (before : Text) : Run σ :=
  let run : Run σ := ⟨workspace, memory, [], { before }⟩
  run.push (.root (some root))

end Run

end ScriptSimplifier
