import ScriptSimplifier.Pass.Process

/-!
# Attempts

A step of a run moves the first pending walk.  When the walk gives a place away and a rule proposes
an edit there, the step *attempts* the edit.  Nothing here is assumed of the rules: `step_cases`
says what any step can do, and only what becomes of an attempt depends on the options of the pass
(`step_congr`).
-/

namespace ScriptSimplifier

/-- An edit that a rule proposes at a place, before anything comes of it. -/
structure Attempt (σ : Type) where
  place : Cursor
  rule : Text
  edit : Edit
  /-- The run in which the place counts as visited and the rule has added what it needs. -/
  run : Run σ

/-- What comes of an attempt. -/
def Attempt.outcome {σ : Type} (attempt : Attempt σ) (pass : Pass σ) (root : Ref) : Progress σ :=
  attempt.run.perform pass root attempt.place attempt.rule attempt.edit

/-- The run that goes on after a step, if it does. -/
def Progress.going? {σ : Type} : Progress σ → Option (Run σ)
  | .going run => some run
  | .ended _ _ => none

/-- The run that a step leaves. -/
def Progress.left {σ : Type} : Progress σ → Run σ
  | .going run => run
  | .ended run _ => run

namespace Run

variable {σ : Type} {pass : Pass σ} {root : Ref} {run : Run σ}

/-- The run that processing starts with. -/
def first (w : Workspace) (memory : σ) (root : Ref) : Run σ :=
  start w memory root ((w.store.tree (some root)).fingerprint?.getD [])

/-! ## Pulling places -/

/-- The place that the next step pulls from the first pending walk, and the run after that. -/
def pull? (run : Run σ) : Option (Cursor × Run σ) :=
  match run.tasks with
  | [] => none
  | task :: rest =>
    match task.walk.advance run.workspace.store with
    | some (.visited place, walk) =>
      some (place, { run with tasks := { task with walk } :: rest })
    | _ => none

/-- Whether the next step drops the first pending walk because it is exhausted. -/
def exhausts (run : Run σ) : Bool := run.tasks.head?.any (·.walk.isDone)

/-- What the next step attempts, if anything. -/
def attempt? (rules : List (Rule σ)) (run : Run σ) : Option (Attempt σ) := do
  let (place, run) ← run.pull?
  let place ← place.refresh? run.workspace.store
  match offer place run.workspace run.memory rules with
  | .edit rule edit workspace memory =>
    let stats := { run.stats with visits := run.stats.visits + 1 }
    some ⟨place, rule, edit, { run with workspace, memory, stats }⟩
  | _ => none

theorem pull?_eq_some {place : Cursor} {left : Run σ} (h : run.pull? = some (place, left)) :
    ∃ task rest outer, run.tasks = task :: rest ∧ task.walk.stops = ⟨place, []⟩ :: outer ∧
      left = { run with tasks := { task with walk := ⟨outer, task.walk.count + 1⟩ } :: rest } := by
  unfold pull? at h
  split at h
  · cases h
  · rename_i task rest htasks
    split at h
    · rename_i place' walk hadvance
      obtain ⟨rfl, rfl⟩ := Prod.mk.inj (Option.some.inj h)
      refine ⟨task, rest, ?_⟩
      unfold Walk.advance at hadvance
      split at hadvance
      · cases hadvance
      · split at hadvance <;> cases hadvance
      · rename_i hstops
        cases hadvance
        exact ⟨_, htasks, hstops, rfl⟩
    · cases h

/-- Pulling a place moves the first pending walk, and does nothing else. -/
theorem pull?_left {place : Cursor} {left : Run σ} (h : run.pull? = some (place, left)) :
    left.workspace = run.workspace ∧ left.memory = run.memory ∧ left.stats = run.stats ∧
      left.tasks.map Task.root = run.tasks.map Task.root ∧ run.exhausts = false := by
  obtain ⟨task, rest, outer, htasks, hstops, rfl⟩ := pull?_eq_some h
  refine ⟨rfl, rfl, rfl, ?_, ?_⟩
  · rw [htasks]
    rfl
  · simp [exhausts, htasks, Walk.isDone, hstops]

theorem attempt?_eq_some {rules : List (Rule σ)} {attempt : Attempt σ}
    (h : run.attempt? rules = some attempt) :
    ∃ place left w memory, run.pull? = some (place, left) ∧
      place.refresh? run.workspace.store = some attempt.place ∧
      offer attempt.place run.workspace run.memory rules =
        .edit attempt.rule attempt.edit w memory ∧
      attempt.run = ⟨w, memory, left.tasks,
        { run.stats with visits := run.stats.visits + 1 }⟩ := by
  obtain ⟨⟨place, left⟩, hpull, h⟩ := Option.bind_eq_some_iff.mp h
  obtain ⟨fresh, hfresh, h⟩ := Option.bind_eq_some_iff.mp h
  obtain ⟨task, rest, outer, -, -, rfl⟩ := pull?_eq_some hpull
  dsimp only at h
  split at h
  · rename_i rule edit w memory hoffer
    obtain rfl := Option.some.inj h
    exact ⟨place, _, w, memory, hpull, hfresh, hoffer, rfl⟩
  · cases h

/-! ## What a step can do -/

/-- What a step leads to that pulls no place. -/
inductive Coasts (run : Run σ) : Progress σ → Prop
  | finished : run.tasks = [] → Coasts run (.ended run .finished)
  | closed {task : Task} {rest : List Task} : run.tasks = task :: rest → task.walk.stops = [] →
      Coasts run (.going { run with tasks := rest })
  | moved {task : Task} {rest : List Task} {place next : Cursor} {ahead : List Cursor}
      {outer : List Stop} : run.tasks = task :: rest →
      task.walk.stops = ⟨place, next :: ahead⟩ :: outer →
      Coasts run (.going { run with
        tasks := { task with
          walk := Walk.enter run.workspace.store
            { task.walk with stops := ⟨place, ahead⟩ :: outer } next } :: rest })

/-- What a step leads to, whatever the rules are. -/
inductive Advances (pass : Pass σ) (root : Ref) (run : Run σ) : Progress σ → Prop
  | coasted {progress : Progress σ} : run.pull? = none → Coasts run progress →
      Advances pass root run progress
  | skipped {place : Cursor} {left : Run σ} : run.pull? = some (place, left) →
      place.refresh? run.workspace.store = none →
      Advances pass root run (.going { left with
        stats := { run.stats with skipped := run.stats.skipped + 1 } })
  | declined {place fresh : Cursor} {left : Run σ} {w : Workspace} {memory : σ} :
      run.pull? = some (place, left) → place.refresh? run.workspace.store = some fresh →
      offer fresh run.workspace run.memory pass.rules = .nothing w memory →
      Advances pass root run (.going ⟨w, memory, left.tasks,
        { run.stats with visits := run.stats.visits + 1 }⟩)
  | faulted {place fresh : Cursor} {left : Run σ} {fault : Fault} {w : Workspace} {memory : σ} :
      run.pull? = some (place, left) → place.refresh? run.workspace.store = some fresh →
      offer fresh run.workspace run.memory pass.rules = .fault fault w memory →
      Advances pass root run (.ended ⟨w, memory, left.tasks,
        { run.stats with visits := run.stats.visits + 1 }⟩ (.fault fault))
  | attempted {attempt : Attempt σ} : run.attempt? pass.rules = some attempt →
      Advances pass root run
        (perform pass root attempt.run attempt.place attempt.rule attempt.edit)

/-- A step that pulls no place depends on nothing but the run. -/
theorem step_of_no_pull (h : run.pull? = none) :
    ∃ progress, Coasts run progress ∧
      ∀ (pass : Pass σ) (root : Ref), step pass root run = progress := by
  cases htasks : run.tasks with
  | nil =>
    refine ⟨_, .finished htasks, fun pass root => ?_⟩
    simp only [step, htasks]
  | cons task rest =>
    cases hstops : task.walk.stops with
    | nil =>
      refine ⟨_, .closed htasks hstops, fun pass root => ?_⟩
      simp only [step, htasks, Walk.advance, hstops]
    | cons stop outer =>
      obtain ⟨place, ahead⟩ := stop
      cases ahead with
      | nil => simp [pull?, htasks, Walk.advance, hstops] at h
      | cons next ahead =>
        refine ⟨_, .moved htasks hstops, fun pass root => ?_⟩
        by_cases hempty : next.element.isNone = true
        · simp only [step, htasks, Walk.advance, hstops, if_pos hempty]
        · simp only [step, htasks, Walk.advance, hstops, if_neg hempty]

/-- A step that pulls a place offers it to the rules. -/
theorem step_of_pull {place : Cursor} {left : Run σ} (h : run.pull? = some (place, left)) :
    step pass root run = dispatch pass root left place := by
  obtain ⟨task, rest, outer, htasks, hstops, rfl⟩ := pull?_eq_some h
  simp only [step, htasks, Walk.advance, hstops]

theorem step_of_attempt {attempt : Attempt σ} (h : run.attempt? pass.rules = some attempt) :
    step pass root run =
      perform pass root attempt.run attempt.place attempt.rule attempt.edit := by
  obtain ⟨place, left, w, memory, hpull, hfresh, hoffer, hrun⟩ := attempt?_eq_some h
  rw [step_of_pull hpull, hrun]
  obtain ⟨task, rest, outer, -, -, rfl⟩ := pull?_eq_some hpull
  simp only [dispatch, hfresh, hoffer]

/-- Every step is one of those that can be. -/
theorem step_cases (pass : Pass σ) (root : Ref) (run : Run σ) :
    Advances pass root run (step pass root run) := by
  cases hpull : run.pull? with
  | none =>
    obtain ⟨progress, hcoasts, hstep⟩ := step_of_no_pull hpull
    rw [hstep]
    exact .coasted hpull hcoasts
  | some pulled =>
    -- a place is pulled: it is gone, or some rule answers there
    obtain ⟨place, left⟩ := pulled
    obtain ⟨task, rest, outer, -, -, hleft⟩ := pull?_eq_some hpull
    cases hfresh : place.refresh? run.workspace.store with
    | none =>
      have hskipped : Advances pass root run _ := .skipped hpull hfresh
      rw [step_of_pull hpull]
      subst hleft
      simpa only [dispatch, hfresh] using hskipped
    | some fresh =>
      cases hoffer : offer fresh run.workspace run.memory pass.rules with
      | nothing w memory =>
        have hdeclined : Advances pass root run _ := .declined hpull hfresh hoffer
        rw [step_of_pull hpull]
        subst hleft
        simpa only [dispatch, hfresh, hoffer] using hdeclined
      | fault fault w memory =>
        have hfaulted : Advances pass root run _ := .faulted hpull hfresh hoffer
        rw [step_of_pull hpull]
        subst hleft
        simpa only [dispatch, hfresh, hoffer] using hfaulted
      | edit rule edit w memory =>
        have hattempt : run.attempt? pass.rules = some ⟨fresh, rule, edit, ⟨w, memory, left.tasks,
            { run.stats with visits := run.stats.visits + 1 }⟩⟩ := by
          subst hleft
          simp only [attempt?, hpull, hfresh, hoffer, bind, Option.bind]
        rw [step_of_attempt hattempt]
        exact .attempted hattempt

/-- An attempt after which the run goes on was carried out. -/
theorem perform_going {place : Cursor} {rule : Text} {edit : Edit} {next : Run σ}
    (h : perform pass root run place rule edit = .going next) :
    ∃ store, pass.limit.any (· ≤ run.stats.operations) = false ∧
      edit.apply (some run.workspace.pool) run.workspace.store = (store, none) ∧
      (pass.validates = true → (store.tree (some root)).invalid? = none) ∧
      next = reschedule
        { run with workspace := { run.workspace with store }, stats := run.stats.applied rule }
        edit := by
  unfold perform at h
  split at h
  · cases h
  · rename_i hlimit
    split at h
    · cases h
    · cases h
    · rename_i store happly
      dsimp only at h
      split at h
      · cases h
      · rename_i hvalid
        refine ⟨store, by simpa using hlimit, happly, ?_, (Progress.going.inj h).symm⟩
        intro hvalidates
        simpa [hvalidates] using hvalid

/-- What an attempt leaves. -/
inductive Performs (run : Run σ) (rule : Text) (edit : Edit) : Run σ → Prop
  /-- The limit was reached. -/
  | limited : Performs run rule edit run
  | failed {store : Store} {failure : Failure} :
      edit.apply (some run.workspace.pool) run.workspace.store = (store, some failure) →
      Performs run rule edit { run with workspace := { run.workspace with store } }
  /-- The edit left an invalid tree. -/
  | invalid {store : Store} :
      edit.apply (some run.workspace.pool) run.workspace.store = (store, none) →
      Performs run rule edit
        { run with workspace := { run.workspace with store }, stats := run.stats.applied rule }
  | applied {store : Store} :
      edit.apply (some run.workspace.pool) run.workspace.store = (store, none) →
      Performs run rule edit (reschedule
        { run with workspace := { run.workspace with store }, stats := run.stats.applied rule }
        edit)

theorem perform_performs (pass : Pass σ) (root : Ref) (run : Run σ) (place : Cursor) (rule : Text)
    (edit : Edit) : Performs run rule edit (perform pass root run place rule edit).left := by
  unfold perform
  split
  · exact .limited
  · split
    · rename_i happly
      exact .failed happly
    · rename_i happly
      exact .failed happly
    · rename_i happly
      dsimp only
      split
      · exact .invalid happly
      · exact .applied happly

/-! ## Many steps -/

/-- What every step keeps, also the last one, holds of everything that a run reaches. -/
theorem steps_keep {P : Run σ → Prop} (hstep : ∀ run, P run → P (step pass root run).left)
    (hrun : P run) (fuel : Nat) : P (run.steps pass root fuel).1 := by
  induction fuel generalizing run with
  | zero => exact hrun
  | succ fuel ih =>
    have hleft := hstep run hrun
    unfold steps
    cases h : step pass root run with
    | going next =>
      rw [h] at hleft
      exact ih hleft
    | ended last ending =>
      rw [h] at hleft
      exact hleft

/-- What a run attempts after so many steps. -/
def AttemptsAt (pass : Pass σ) (root : Ref) (run : Run σ) (k : Nat) (attempt : Attempt σ) : Prop :=
  ∃ last, run.steps pass root k = (last, none) ∧ last.attempt? pass.rules = some attempt

theorem AttemptsAt.succ {next : Run σ} {k : Nat} {attempt : Attempt σ}
    (hstep : step pass root run = .going next) (h : next.AttemptsAt pass root k attempt) :
    run.AttemptsAt pass root (k + 1) attempt := by
  obtain ⟨last, hlast, hattempt⟩ := h
  refine ⟨last, ?_, hattempt⟩
  unfold steps
  rw [hstep]
  exact hlast

end Run

/-! ## A small pass -/

/-- A rule that removes whatever stands in a list. -/
def dropItems : Rule Unit :=
  .plain "drop-items" fun place w => if place.inList then some (.remove place, w) else none

/-- A script of two empty statements, and no fragments. -/
def twoItems : Workspace where
  store := ⟨#[.list [some .emptyStatement, some .emptyStatement],
    .node .script [some (.cell 0)]]⟩
  pool := .empty

/-- A pass that may drop one of them. -/
def dropPass : Pass Unit := { name := "drop", rules := [dropItems] }

end ScriptSimplifier
