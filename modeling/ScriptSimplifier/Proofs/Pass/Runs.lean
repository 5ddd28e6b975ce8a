import ScriptSimplifier.Pass.Process
import ScriptSimplifier.Proofs.Pass.Alteration

/-!
# Runs of the catalog

What a step of a run can do when the rules are simplifications of the catalog: `Moves` for the steps
after which the run goes on and `Ends` for the last one.  The places that are still to be visited
form an agenda; every place of it starts at the root, so a place that can be refreshed is live.
With what edits do to a tree this gives the invariant of all runs (`Sound`).
-/

namespace ScriptSimplifier

open Workspace

/-! ## The agenda -/

/-- A visit that is still to be made: to a place and everything below it, or to the place by itself
because what is below it was or will be visited apart from it. -/
inductive Visit where
  | whole (place : Cursor)
  | alone (place : Cursor)

def Visit.place : Visit → Cursor
  | .whole place => place
  | .alone place => place

/-- What is still to be visited at stops, in order. -/
def Walk.agendaOf (stops : List Stop) : List Visit :=
  stops.flatMap fun stop => stop.ahead.map .whole ++ [.alone stop.place]

@[simp] theorem Walk.agendaOf_nil : Walk.agendaOf [] = [] := rfl

@[simp] theorem Walk.agendaOf_cons (place : Cursor) (ahead : List Cursor) (stops : List Stop) :
    Walk.agendaOf (⟨place, ahead⟩ :: stops) =
      ahead.map .whole ++ .alone place :: Walk.agendaOf stops := by
  simp [Walk.agendaOf]

/-- What a task is still to visit. -/
def Task.agenda (task : Task) : List Visit := Walk.agendaOf task.walk.stops

/-- What a run is still to visit. -/
def Run.agenda {σ : Type} (run : Run σ) : List Visit := run.tasks.flatMap Task.agenda

/-- What entering a place means for the agenda. -/
def Visit.opened (s : Store) (place : Cursor) : List Visit :=
  if place.element.isNone then [] else (place.children s).map .whole ++ [.alone place]

theorem Walk.agendaOf_enter (s : Store) (walk : Walk) (place : Cursor) :
    Walk.agendaOf (walk.enter s place).stops =
      Visit.opened s place ++ Walk.agendaOf walk.stops := by
  rw [Walk.enter, Visit.opened]
  split <;> simp

namespace Run

variable {σ : Type} {sims : List Simplification} {pass : Pass σ} {root : Ref}

theorem agenda_cons {run : Run σ} {task : Task} {rest : List Task} {visit : Visit}
    {visits : List Visit} (htasks : run.tasks = task :: rest)
    (hagenda : task.agenda = visit :: visits) :
    run.agenda = visit :: (visits ++ rest.flatMap Task.agenda) := by
  rw [agenda, htasks, List.flatMap_cons, hagenda, List.cons_append]

theorem mem_agenda {run : Run σ} {task : Task} {rest : List Task} {visit : Visit}
    {visits : List Visit} (htasks : run.tasks = task :: rest)
    (hagenda : task.agenda = visit :: visits) : visit ∈ run.agenda := by
  rw [agenda_cons htasks hagenda]
  exact List.mem_cons_self

/-! ## What a step does -/

/-- What rules of the catalog answer at a place. -/
theorem offer_catalog (sims : List Simplification) (place : Cursor) (w : Workspace) (memory : σ) :
    ((∀ sim ∈ sims, sim.propose place w = none) ∧
        offer place w memory (sims.map Simplification.rule) = .nothing w memory) ∨
      ∃ sim ∈ sims, ∃ edit w', sim.propose place w = some (edit, w') ∧
        offer place w memory (sims.map Simplification.rule) = .edit sim.name edit w' memory := by
  induction sims with
  | nil => exact .inl ⟨by simp, rfl⟩
  | cons sim rest ih =>
    cases hsim : sim.propose place w with
    | some p =>
      refine .inr ⟨sim, List.mem_cons_self, p.1, p.2, hsim, ?_⟩
      simp [offer, Simplification.rule, Rule.plain, hsim]
    | none =>
      have hoffer : offer place w memory ((sim :: rest).map Simplification.rule) =
          offer place w memory (rest.map Simplification.rule) := by
        simp [offer, Simplification.rule, Rule.plain, hsim, Proposal.nothing]
      rw [hoffer]
      rcases ih with ⟨hnone, heq⟩ | ⟨sim', hmem, edit, w', hedit, heq⟩
      · exact .inl ⟨by simpa [hsim] using hnone, heq⟩
      · exact .inr ⟨sim', List.mem_cons_of_mem _ hmem, edit, w', hedit, heq⟩

/-- A simplification proposes an edit at a visited place as it is now. -/
structure Proposes (sims : List Simplification) (run : Run σ) (place : Cursor) (fresh : Cursor)
    (edit : Edit) (w' : Workspace) : Prop where
  refresh : place.refresh? run.workspace.store = some fresh
  propose : ∃ sim ∈ sims, sim.propose fresh run.workspace = some (edit, w')

/-- The steps after which a run goes on. -/
inductive Moves (sims : List Simplification) (pass : Pass σ) (root : Ref) (run : Run σ) :
    Run σ → Prop
  | closed {task : Task} {rest : List Task} : run.tasks = task :: rest → task.agenda = [] →
      Moves sims pass root run { run with tasks := rest }
  | entered {task task' : Task} {rest : List Task} {place : Cursor} {visits : List Visit} :
      run.tasks = task :: rest → task.agenda = .whole place :: visits →
      task'.root = task.root →
      task'.agenda = Visit.opened run.workspace.store place ++ visits →
      Moves sims pass root run { run with tasks := task' :: rest }
  | left {task task' : Task} {rest : List Task} {place : Cursor} {visits : List Visit}
      {stats : Stats} : run.tasks = task :: rest → task.agenda = .alone place :: visits →
      task'.root = task.root → task'.agenda = visits → stats.operations = run.stats.operations →
      (∀ fresh, place.refresh? run.workspace.store = some fresh →
        ∀ sim ∈ sims, sim.propose fresh run.workspace = none) →
      Moves sims pass root run { run with tasks := task' :: rest, stats }
  | edited {task task' : Task} {rest : List Task} {place fresh : Cursor} {visits : List Visit}
      {edit : Edit} {w' : Workspace} {store : Store} {stats : Stats} :
      run.tasks = task :: rest → task.agenda = .alone place :: visits →
      task'.root = task.root → task'.agenda = visits → Proposes sims run place fresh edit w' →
      edit.apply (some w'.pool) w'.store = (store, none) →
      (pass.validates = true → (store.tree (some root)).invalid? = none) →
      stats.operations = run.stats.operations + 1 →
      Moves sims pass root run
        (reschedule ⟨⟨store, w'.pool⟩, run.memory, task' :: rest, stats⟩ edit)

/-- How the edit of a rule ends a run, and with which workspace. -/
inductive Stops (pass : Pass σ) (root : Ref) (edit : Edit) (w : Workspace) :
    Workspace → Ending → Prop
  | limited {n : Nat} {rule shown : Text} : pass.limit ≠ none →
      Stops pass root edit w w (.failed (.limit n rule shown))
  | refused {store : Store} {rule : Text} {error : EditError} :
      edit.apply (some w.pool) w.store = (store, some (.refused error)) →
      Stops pass root edit w ⟨store, w.pool⟩ (.failed (.refused rule error))
  | fault {store : Store} {fault : ChildFault} :
      edit.apply (some w.pool) w.store = (store, some (.fault fault)) →
      Stops pass root edit w ⟨store, w.pool⟩ (.fault (.misplaced fault))
  | invalid {store : Store} {rule : Text} {invalid : Invalid} :
      edit.apply (some w.pool) w.store = (store, none) → pass.validates = true →
      (store.tree (some root)).invalid? = some invalid →
      Stops pass root edit w ⟨store, w.pool⟩ (.failed (.invalidAfter rule invalid))

/-- The last steps of runs. -/
inductive Ends (sims : List Simplification) (pass : Pass σ) (root : Ref) (run : Run σ) :
    Run σ → Ending → Prop
  | finished : run.tasks = [] → Ends sims pass root run run .finished
  | stopped {visit : Visit} {fresh : Cursor} {edit : Edit} {w' : Workspace} {run' : Run σ}
      {ending : Ending} : visit ∈ run.agenda → Proposes sims run visit.place fresh edit w' →
      Stops pass root edit w' run'.workspace ending → Ends sims pass root run run' ending

/-- What a step leads to. -/
def Follows (sims : List Simplification) (pass : Pass σ) (root : Ref) (run : Run σ) :
    Progress σ → Prop
  | .going run' => Moves sims pass root run run'
  | .ended run' ending => Ends sims pass root run run' ending

/-- An edit that is performed ends the run or has its places visited again. -/
theorem perform_cases (pass : Pass σ) (root : Ref) (run : Run σ) (place : Cursor) (rule : Text)
    (edit : Edit) :
    (∃ run' ending, perform pass root run place rule edit = .ended run' ending ∧
        Stops pass root edit run.workspace run'.workspace ending) ∨
      ∃ store stats, edit.apply (some run.workspace.pool) run.workspace.store = (store, none) ∧
        (pass.validates = true → (store.tree (some root)).invalid? = none) ∧
        stats.operations = run.stats.operations + 1 ∧
        perform pass root run place rule edit =
          .going (reschedule ⟨⟨store, run.workspace.pool⟩, run.memory, run.tasks, stats⟩ edit) := by
  rw [perform]
  split
  · rename_i hlimit
    refine .inl ⟨_, _, rfl, .limited ?_⟩
    intro hnone
    simp [hnone] at hlimit
  · split
    · rename_i store error happly
      exact .inl ⟨_, _, rfl, .refused happly⟩
    · rename_i store fault happly
      exact .inl ⟨_, _, rfl, .fault happly⟩
    · rename_i store happly
      dsimp only
      split
      · rename_i invalid hinvalid
        split at hinvalid
        · rename_i hvalidates
          exact .inl ⟨_, _, rfl, .invalid happly hvalidates hinvalid⟩
        · simp at hinvalid
      · rename_i hvalid
        refine .inr ⟨store, run.stats.applied rule, happly, ?_, rfl, rfl⟩
        intro hvalidates
        simpa [hvalidates] using hvalid

/-- What the visit of a place leads to, if the task that makes it is left with the visits after
it. -/
theorem dispatch_follows (hrules : pass.rules = sims.map Simplification.rule) (root : Ref)
    (run : Run σ) {task task' : Task} {rest : List Task} {place : Cursor} {visits : List Visit}
    (htasks : run.tasks = task :: rest) (hagenda : task.agenda = .alone place :: visits)
    (hroot : task'.root = task.root) (hagenda' : task'.agenda = visits) :
    Follows sims pass root run
      (dispatch pass root { run with tasks := task' :: rest } place) := by
  -- a place that is gone and a place where no rule answers are left in the same way
  have hleft : ∀ stats : Stats, stats.operations = run.stats.operations →
      (∀ fresh, place.refresh? run.workspace.store = some fresh →
        ∀ sim ∈ sims, sim.propose fresh run.workspace = none) →
      Moves sims pass root run { run with tasks := task' :: rest, stats } :=
    fun _ hstats hnone => .left htasks hagenda hroot hagenda' hstats hnone
  rw [dispatch]
  cases hfresh : place.refresh? run.workspace.store with
  | none =>
    refine hleft _ rfl ?_
    intro fresh hfresh'
    cases hfresh.symm.trans hfresh'
  | some fresh =>
    dsimp only
    rw [hrules]
    rcases offer_catalog sims fresh run.workspace run.memory with
      ⟨hnone, hoffer⟩ | ⟨sim, hsim, edit, w', hpropose, hoffer⟩
    · rw [hoffer]
      refine hleft _ rfl ?_
      intro fresh' hfresh'
      obtain rfl := Option.some.inj (hfresh.symm.trans hfresh')
      exact hnone
    · rw [hoffer]
      have hproposes : Proposes sims run place fresh edit w' := ⟨hfresh, sim, hsim, hpropose⟩
      dsimp only
      rcases perform_cases pass root
        ⟨w', run.memory, task' :: rest, { run.stats with visits := run.stats.visits + 1 }⟩ fresh
          sim.name edit with
        ⟨run', ending, heq, hstops⟩ | ⟨store, stats, happly, hvalid, hstats, heq⟩
      · rw [heq]
        exact .stopped (mem_agenda htasks hagenda) hproposes hstops
      · rw [heq]
        exact .edited htasks hagenda hroot hagenda' hproposes happly hvalid hstats

/-- What a step can do. -/
theorem step_follows (hrules : pass.rules = sims.map Simplification.rule) (root : Ref)
    (run : Run σ) : Follows sims pass root run (step pass root run) := by
  rw [step]
  cases htasks : run.tasks with
  | nil => exact .finished htasks
  | cons task rest =>
    dsimp only
    cases hstops : task.walk.stops with
    | nil =>
      have hagenda : task.agenda = [] := by rw [Task.agenda, hstops]; rfl
      simp only [Walk.advance, hstops]
      exact .closed htasks hagenda
    | cons stop outer =>
      obtain ⟨place, ahead⟩ := stop
      cases ahead with
      | cons next ahead =>
        have hagenda : task.agenda =
            .whole next :: (ahead.map .whole ++ .alone place :: Walk.agendaOf outer) := by
          rw [Task.agenda, hstops]
          simp
        have hmoves : ∀ walk : Walk, walk = Walk.enter run.workspace.store
              { task.walk with stops := ⟨place, ahead⟩ :: outer } next →
            Moves sims pass root run { run with tasks := { task with walk } :: rest } := by
          rintro walk rfl
          refine .entered htasks hagenda rfl ?_
          rw [Task.agenda, Walk.agendaOf_enter, Walk.agendaOf_cons]
        simp only [Walk.advance, hstops]
        -- an empty place opens nothing, so passing it is the same move as entering it
        by_cases hnone : next.element.isNone = true
        · rw [if_pos hnone]
          exact hmoves _ rfl
        · rw [if_neg hnone]
          exact hmoves _ rfl
      | nil =>
        have hagenda : task.agenda = .alone place :: Walk.agendaOf outer := by
          rw [Task.agenda, hstops]
          simp
        simp only [Walk.advance, hstops]
        exact dispatch_follows hrules root run htasks hagenda rfl rfl

/-! ## Visiting again -/

/-- Schedules one place again. -/
def resume (run : Run σ) (place : Cursor) : Run σ := (run.discard place.element).push place

theorem reschedule_eq (run : Run σ) (edit : Edit) :
    run.reschedule edit = (tainted run.workspace.store edit).foldl resume run := rfl

@[simp] theorem workspace_reschedule (run : Run σ) (edit : Edit) :
    (run.reschedule edit).workspace = run.workspace := by
  rw [reschedule_eq]
  generalize tainted run.workspace.store edit = places
  induction places generalizing run with
  | nil => rfl
  | cons place rest ih => exact ih (run.resume place)

@[simp] theorem operations_reschedule (run : Run σ) (edit : Edit) :
    (run.reschedule edit).stats.operations = run.stats.operations := by
  rw [reschedule_eq]
  induction tainted run.workspace.store edit generalizing run with
  | nil => rfl
  | cons place places ih => exact (ih (run.resume place)).trans rfl

theorem tasks_resume (run : Run σ) (place : Cursor) :
    (run.resume place).tasks = ⟨place.element, .start run.workspace.store place⟩ ::
      run.tasks.filter (·.root != place.element) := rfl

theorem agenda_start (s : Store) (place : Cursor) (e : Option Ref) :
    Task.agenda ⟨e, .start s place⟩ = Visit.opened s place := by
  rw [Task.agenda, Walk.start, Walk.agendaOf_enter]
  simp

/-- Gathers a touched place as it is now, unless its element was found before. -/
def gather (s : Store) (found : List Cursor) (place : Cursor) : List Cursor :=
  match (retraced s place).refresh? s with
  | none => found
  | some fresh =>
    if fresh.element.isNone || found.any (·.element == fresh.element) then found
    else found ++ [fresh]

theorem tainted_gather (s : Store) (edit : Edit) :
    tainted s edit = edit.invalidated.foldl (gather s) [] := rfl

/-- Every place that is visited again is a touched place as it is now. -/
theorem mem_tainted {s : Store} {edit : Edit} {c : Cursor} (h : c ∈ tainted s edit) :
    ∃ d ∈ edit.invalidated, (retraced s d).refresh? s = some c ∧ c.element.isSome = true := by
  rw [tainted_gather] at h
  -- the places are gathered one by one, so the induction is about any that were found before
  suffices hgen : ∀ (places found : List Cursor), c ∈ places.foldl (gather s) found →
      c ∈ found ∨ ∃ d ∈ places, (retraced s d).refresh? s = some c ∧ c.element.isSome = true by
    simpa using hgen _ _ h
  intro places
  induction places with
  | nil => exact fun found h => .inl h
  | cons d rest ih =>
    intro found h
    rw [List.foldl_cons] at h
    rcases ih _ h with h' | ⟨d', hd', hrefresh⟩
    · unfold gather at h'
      split at h'
      · exact .inl h'
      · rename_i fresh hfresh
        split at h'
        · exact .inl h'
        · rename_i hnew
          rcases List.mem_append.mp h' with h' | h'
          · exact .inl h'
          · obtain rfl : c = fresh := by simpa using h'
            refine .inr ⟨d, List.mem_cons_self, hfresh, ?_⟩
            cases hc : c.element with
            | none => simp [hc] at hnew
            | some r => rfl
    · exact .inr ⟨d', List.mem_cons_of_mem _ hd', hrefresh⟩

/-- Every element at a touched place that still exists is visited again. -/
theorem exists_tainted {s : Store} {edit : Edit} {d c : Cursor} (hd : d ∈ edit.invalidated)
    (hc : (retraced s d).refresh? s = some c) (hsome : c.element.isSome = true) :
    ∃ c' ∈ tainted s edit, c'.element = c.element := by
  rw [tainted_gather]
  -- an element that was found before is not gathered twice, so another cursor may stand for it
  suffices hgen : ∀ (places found : List Cursor),
      (d ∈ places ∨ ∃ c' ∈ found, c'.element = c.element) →
      ∃ c' ∈ places.foldl (gather s) found, c'.element = c.element by
    exact hgen _ _ (.inl hd)
  intro places
  induction places with
  | nil =>
    rintro found (h | h)
    · simp at h
    · exact h
  | cons d' rest ih =>
    intro found h
    rw [List.foldl_cons]
    refine ih _ ?_
    rcases h with h | ⟨c', hc', heq⟩
    · rcases List.mem_cons.mp h with rfl | h
      · refine .inr ?_
        unfold gather
        rw [hc]
        cases hce : c.element with
        | none => simp [hce] at hsome
        | some r =>
          dsimp only
          split
          · rename_i hfound
            obtain ⟨c', hc', heq⟩ : ∃ c' ∈ found, c'.element = c.element := by
              simpa [hce] using hfound
            exact ⟨c', hc', heq.trans hce⟩
          · exact ⟨c, by simp, hce⟩
      · exact .inl h
    · refine .inr ⟨c', ?_, heq⟩
      unfold gather
      split
      · exact hc'
      · split
        · exact hc'
        · exact List.mem_append_left _ hc'

end Run

/-! ## The invariant of runs -/

/-- An element is found at a place or on the way to it. -/
def Cursor.Passes (e : Option Ref) : Cursor → Prop
  | .root e' => e' = e
  | .step parent _ e' => e' = e ∨ parent.Passes e

theorem Cursor.passes_element (c : Cursor) : c.Passes c.element := by
  cases c with
  | root e => rfl
  | step parent key e => exact .inl rfl

/-- A task visits only places below its root. -/
structure Task.Sound (root : Ref) (task : Task) : Prop where
  proper : ∀ visit ∈ task.agenda, visit.place.Proper root
  passes : ∀ visit ∈ task.agenda, visit.place.Passes task.root

variable {σ : Type} {sims : List Simplification} {pass : Pass σ} {root : Ref} {strict : Strictness}

theorem Visit.opened_sound {s : Store} (ht : s.Typed strict) {place : Cursor} {e : Option Ref}
    (hproper : place.Proper root) (hpasses : place.Passes e) {visit : Visit}
    (h : visit ∈ Visit.opened s place) : visit.place.Proper root ∧ visit.place.Passes e := by
  rw [Visit.opened] at h
  split at h
  · simp at h
  · rename_i hsome
    cases hr : place.element with
    | none => simp [hr] at hsome
    | some r =>
      rcases List.mem_append.mp h with h | h
      · rw [ht.shaped.children_eq hr, List.map_map] at h
        obtain ⟨p, hp, rfl⟩ := List.mem_map.mp h
        refine ⟨⟨hproper, ?_⟩, .inr hpasses⟩
        intro i hi
        exact Cursor.index_nonneg (hi ▸ hp : (Key.index i, p.2) ∈ s.places r)
      · obtain rfl : visit = .alone place := by simpa using h
        exact ⟨hproper, hpasses⟩

namespace Run

/-- The tree is intact and every place that is to be visited starts at its root. -/
structure Sound (strict : Strictness) (root : Ref) (run : Run σ) : Prop where
  intact : run.workspace.Intact strict root
  tasks : ∀ task ∈ run.tasks, task.Sound root

theorem Sound.proper {run : Run σ} (h : run.Sound strict root) {visit : Visit}
    (hvisit : visit ∈ run.agenda) : visit.place.Proper root := by
  obtain ⟨task, htask, hmem⟩ := List.mem_flatMap.mp hvisit
  exact (h.tasks task htask).proper visit hmem

theorem Sound.resume {run : Run σ} (h : run.Sound strict root) {place : Cursor}
    (hplace : place.Proper root) : (run.resume place).Sound strict root := by
  refine ⟨h.intact, ?_⟩
  rw [tasks_resume]
  refine List.forall_mem_cons.mpr ⟨⟨?_, ?_⟩, ?_⟩
  · intro visit hvisit
    rw [agenda_start] at hvisit
    exact (Visit.opened_sound h.intact.typed hplace place.passes_element hvisit).1
  · intro visit hvisit
    rw [agenda_start] at hvisit
    exact (Visit.opened_sound h.intact.typed hplace place.passes_element hvisit).2
  · exact fun task htask => h.tasks task (List.mem_filter.mp htask).1

theorem retraced_proper (s : Store) {c : Cursor} (h : c.Proper root) :
    (retraced s c).Proper root := by
  induction c with
  | root e => exact h
  | step parent key e ih =>
    rw [retraced]
    split
    · exact ih h.1
    · exact h

/-- A refreshed place of the agenda is live. -/
theorem live_of_refresh {s : Store} {c d : Cursor} (hc : c.Proper root)
    (h : c.refresh? s = some d) (hd : d.element.isSome = true) :
    d.Live s root ∧ d.Proper root ∧ d.track = c.track := by
  obtain ⟨helement, htrack, hproper, hlive⟩ :=
    Cursor.refresh_live hc (Cursor.refresh_of_refresh? h)
  exact ⟨hlive (helement ▸ hd), hproper, htrack⟩

theorem Sound.reschedule {run : Run σ} (h : run.Sound strict root) {edit : Edit}
    (hedit : ∀ d ∈ edit.invalidated, d.Proper root) : (run.reschedule edit).Sound strict root := by
  have hplaces : ∀ c ∈ tainted run.workspace.store edit, c.Proper root := by
    intro c hc
    obtain ⟨d, hd, hrefresh, hsome⟩ := mem_tainted hc
    exact (live_of_refresh (retraced_proper _ (hedit d hd)) hrefresh hsome).2.1
  rw [reschedule_eq]
  revert hplaces
  generalize tainted run.workspace.store edit = places
  intro hplaces
  induction places generalizing run with
  | nil => exact h
  | cons place rest ih =>
    obtain ⟨hplace, hrest⟩ := List.forall_mem_cons.mp hplaces
    exact ih (h.resume hplace) hrest

/-- What is proposed at a place of the agenda is proposed at a live place. -/
theorem Proposes.outcome {run : Run σ} (hrun : run.Sound strict root) {visit : Visit}
    (hvisit : visit ∈ run.agenda) {fresh : Cursor} {edit : Edit} {w' : Workspace}
    (h : Proposes sims run visit.place fresh edit w') :
    fresh.Live run.workspace.store root ∧ w'.Intact strict root ∧
      EditOutcome strict root run.workspace fresh edit w' := by
  obtain ⟨sim, _, hpropose⟩ := h.propose
  obtain ⟨⟨r, hr, _⟩, hgrows, hkept⟩ := sim.grows hrun.intact.toKept hpropose
  obtain ⟨hlive, _⟩ := live_of_refresh (hrun.proper hvisit) h.refresh (by simp [hr])
  exact ⟨hlive, hrun.intact.grow hgrows hkept, sim.outcome hrun.intact hlive hpropose⟩

/-- If the edit is applied, an element gets other children. -/
theorem Proposes.changes {run : Run σ} (hrun : run.Sound strict root) {visit : Visit}
    (hvisit : visit ∈ run.agenda) {fresh : Cursor} {edit : Edit} {w' : Workspace} {store : Store}
    (h : Proposes sims run visit.place fresh edit w')
    (happly : edit.apply (some w'.pool) w'.store = (store, none)) :
    fresh.Live run.workspace.store root ∧ ∃ holder x kids,
      Changes root run.workspace fresh edit w' holder x kids ∧ store = w'.store.refill x kids := by
  obtain ⟨hlive, _, houtcome⟩ := h.outcome hrun hvisit
  exact ⟨hlive, houtcome.changes happly⟩

/-- Tasks of which the first was replaced by another one with the same root. -/
theorem Sound.tasks_cons {run : Run σ} (h : run.Sound strict root) {task task' : Task}
    {rest : List Task} (htasks : run.tasks = task :: rest) (hroot : task'.root = task.root)
    (hagenda : ∀ visit ∈ task'.agenda, visit.place.Proper root ∧ visit.place.Passes task.root) :
    ∀ t ∈ task' :: rest, t.Sound root := by
  refine List.forall_mem_cons.mpr ⟨⟨fun e he => (hagenda e he).1, fun e he => ?_⟩, ?_⟩
  · rw [hroot]
    exact (hagenda e he).2
  · intro t ht
    exact h.tasks t (by rw [htasks]; exact List.mem_cons_of_mem _ ht)

/-- Tasks of which the first has made its first visit. -/
theorem Sound.tasks_left {run : Run σ} (h : run.Sound strict root) {task task' : Task}
    {rest : List Task} {visit : Visit} {visits : List Visit} (htasks : run.tasks = task :: rest)
    (hagenda : task.agenda = visit :: visits) (hroot : task'.root = task.root)
    (hagenda' : task'.agenda = visits) : ∀ t ∈ task' :: rest, t.Sound root := by
  have htask := h.tasks task (by rw [htasks]; exact List.mem_cons_self)
  refine h.tasks_cons htasks hroot fun later hlater => ?_
  have hmem : later ∈ task.agenda := by
    rw [hagenda, ← hagenda']
    exact List.mem_cons_of_mem _ hlater
  exact ⟨htask.proper _ hmem, htask.passes _ hmem⟩

/-- A step keeps the invariant. -/
theorem Moves.sound {run run' : Run σ} (h : Moves sims pass root run run')
    (hrun : run.Sound strict root) : run'.Sound strict root := by
  cases h with
  | closed htasks _ =>
    exact ⟨hrun.intact, fun t ht => hrun.tasks t (by rw [htasks]; exact List.mem_cons_of_mem _ ht)⟩
  | @entered task task' rest place visits htasks hagenda hroot hagenda' =>
    have htask := hrun.tasks task (by rw [htasks]; exact List.mem_cons_self)
    refine ⟨hrun.intact, hrun.tasks_cons htasks hroot fun visit hvisit => ?_⟩
    rw [hagenda', List.mem_append] at hvisit
    rcases hvisit with hvisit | hvisit
    · have hmem : Visit.whole place ∈ task.agenda := by simp [hagenda]
      exact Visit.opened_sound hrun.intact.typed (htask.proper _ hmem) (htask.passes _ hmem) hvisit
    · have hmem : visit ∈ task.agenda := by simp [hagenda, hvisit]
      exact ⟨htask.proper _ hmem, htask.passes _ hmem⟩
  | @left task task' rest place visits stats htasks hagenda hroot hagenda' =>
    exact ⟨hrun.intact, hrun.tasks_left htasks hagenda hroot hagenda'⟩
  | @edited task task' rest place fresh visits edit w' store stats htasks hagenda hroot hagenda'
      hproposes happly =>
    obtain ⟨-, holder, x, kids, hchanges, rfl⟩ :=
      Proposes.changes hrun (mem_agenda htasks hagenda) hproposes happly
    exact Sound.reschedule
      ⟨hchanges.intact hrun.intact, hrun.tasks_left htasks hagenda hroot hagenda'⟩ hchanges.proper

/-- How a run over an intact tree ends before its work is done: the limit is reached, a
replacement is refused because it is nothing or because the root has no parent, or an edit left an
invalid tree. -/
inductive Halts (strict : Strictness) (pass : Pass σ) (root : Ref) (w : Workspace) (place : Cursor)
    (edit : Edit) (w' : Workspace) : Workspace → Ending → Prop
  | limited {n : Nat} {rule shown : Text} : pass.limit ≠ none →
      Halts strict pass root w place edit w' w' (.failed (.limit n rule shown))
  | empty {rule shown : Text} : strict.complete = false →
      Halts strict pass root w place edit w' w' (.failed (.refused rule (.nothing shown)))
  | noParent {rule shown : Text} {kind : Kind} : place = .root (some root) →
      w.store.kind? root = some kind → kind.isReplaceable = true →
      Halts strict pass root w place edit w' w' (.failed (.refused rule (.noParent shown)))
  | invalid {rule : Text} {invalid : Invalid} {holder : Cursor} {x : Ref}
      {kids : List (Option Ref)} : Changes root w place edit w' holder x kids →
      pass.validates = true →
      ((w'.refill x kids).store.tree (some root)).invalid? = some invalid →
      Halts strict pass root w place edit w' (w'.refill x kids)
        (.failed (.invalidAfter rule invalid))

theorem Stops.halts {w w' left : Workspace} {place : Cursor} {edit : Edit} {ending : Ending}
    (h : Stops pass root edit w' left ending) (houtcome : EditOutcome strict root w place edit w') :
    Halts strict pass root w place edit w' left ending := by
  cases h with
  | limited hlimit => exact .limited hlimit
  | refused happly =>
    cases houtcome with
    | empty hstrict _ _ hrefused =>
      obtain ⟨rfl, hfailure⟩ := Prod.mk.inj (hrefused.symm.trans happly)
      cases hfailure
      exact .empty hstrict
    | noParent hplace hkind hreplaceable _ _ hrefused =>
      obtain ⟨rfl, hfailure⟩ := Prod.mk.inj (hrefused.symm.trans happly)
      cases hfailure
      exact .noParent hplace hkind hreplaceable
    | changed _ happlied => simp [happlied] at happly
  | fault happly =>
    cases houtcome with
    | empty _ _ _ hrefused => simp [hrefused] at happly
    | noParent _ _ _ _ _ hrefused => simp [hrefused] at happly
    | changed _ happlied => simp [happlied] at happly
  | invalid happly hvalidates hinvalid =>
    obtain ⟨holder, x, kids, hchanges, rfl⟩ := houtcome.changes happly
    exact .invalid hchanges hvalidates hinvalid

/-- A run over an intact tree ends when its work is done, or because of what was proposed at a
live place. -/
theorem Ends.cases {run last : Run σ} {ending : Ending} (h : Ends sims pass root run last ending)
    (hrun : run.Sound strict root) :
    (run.tasks = [] ∧ last = run ∧ ending = .finished) ∨
      ∃ sim ∈ sims, ∃ place edit w', place.Live run.workspace.store root ∧
        sim.propose place run.workspace = some (edit, w') ∧
        Halts strict pass root run.workspace place edit w' last.workspace ending := by
  cases h with
  | finished htasks => exact .inl ⟨htasks, rfl, rfl⟩
  | @stopped visit fresh edit w' _ _ hvisit hproposes hstops =>
    obtain ⟨hlive, _, houtcome⟩ := Proposes.outcome hrun hvisit hproposes
    obtain ⟨sim, hsim, hpropose⟩ := hproposes.propose
    exact .inr ⟨sim, hsim, fresh, edit, w', hlive, hpropose, hstops.halts houtcome⟩

/-- A step of a run is part of a history. -/
theorem Moves.history {run run' : Run σ} (h : Moves sims pass root run run')
    (hrun : run.Sound strict root) : History strict root run.workspace run'.workspace := by
  cases h with
  | closed _ _ => exact .refl
  | entered _ _ _ _ => exact .refl
  | left _ _ _ _ _ _ => exact .refl
  | @edited task task' rest place fresh visits edit w' store stats htasks hagenda _ _ hproposes
      happly =>
    obtain ⟨-, holder, x, kids, hchanges, rfl⟩ :=
      Proposes.changes hrun (mem_agenda htasks hagenda) hproposes happly
    rw [workspace_reschedule]
    exact .single (.changed hchanges)

/-- So is the last step. -/
theorem Ends.history {run last : Run σ} {ending : Ending} (h : Ends sims pass root run last ending)
    (hrun : run.Sound strict root) : History strict root run.workspace last.workspace := by
  rcases h.cases hrun with ⟨_, rfl, _⟩ | ⟨sim, _, place, edit, w', hlive, hpropose, hhalts⟩
  · exact .refl
  · obtain ⟨_, hgrows, hkept⟩ := sim.grows hrun.intact.toKept hpropose
    revert hhalts
    generalize last.workspace = left
    intro hhalts
    cases hhalts with
    | limited _ => exact .single (.grown hgrows hkept)
    | empty _ => exact .single (.grown hgrows hkept)
    | noParent _ _ _ => exact .single (.grown hgrows hkept)
    | invalid hchanges _ _ => exact .single (.changed hchanges)

theorem Halts.failed {w w' left : Workspace} {place : Cursor} {edit : Edit} {ending : Ending}
    (h : Halts strict pass root w place edit w' left ending) : ∃ error, ending = .failed error := by
  cases h <;> exact ⟨_, rfl⟩

/-! ## Whole runs -/

/-- What every step keeps holds as long as a run goes on, and before its last step. -/
theorem steps_induction (hrules : pass.rules = sims.map Simplification.rule) {P : Run σ → Prop}
    (hmoves : ∀ run run', P run → Moves sims pass root run run' → P run') {run : Run σ}
    (hrun : P run) (fuel : Nat) :
    (P (run.steps pass root fuel).1 ∧ (run.steps pass root fuel).2 = none) ∨
      ∃ before ending, P before ∧ Ends sims pass root before (run.steps pass root fuel).1 ending ∧
        (run.steps pass root fuel).2 = some ending := by
  induction fuel generalizing run with
  | zero => exact .inl ⟨hrun, rfl⟩
  | succ fuel ih =>
    have hfollows := step_follows hrules root run
    rw [Run.steps]
    cases hstep : step pass root run with
    | going run' =>
      rw [hstep] at hfollows
      exact ih (hmoves run run' hrun hfollows)
    | ended last ending =>
      rw [hstep] at hfollows
      exact .inr ⟨run, ending, hrun, hfollows, rfl⟩

/-- Whatever a run reaches is part of a history. -/
theorem Sound.history (hrules : pass.rules = sims.map Simplification.rule) {run : Run σ}
    (hrun : run.Sound strict root) (fuel : Nat) :
    History strict root run.workspace (run.steps pass root fuel).1.workspace := by
  rcases steps_induction hrules
    (P := fun run' => run'.Sound strict root ∧ History strict root run.workspace run'.workspace)
    (fun _ _ hrun' h => ⟨h.sound hrun'.1, hrun'.2.trans (h.history hrun'.1)⟩) ⟨hrun, .refl⟩
    fuel with
    ⟨⟨_, hhistory⟩, _⟩ | ⟨before, ending, ⟨hsound, hhistory⟩, hends, _⟩
  · exact hhistory
  · exact hhistory.trans (hends.history hsound)

/-- A run at its start keeps the invariant if the tree is intact. -/
theorem sound_start {w : Workspace} (hw : w.Intact strict root) (memory : σ) (before : Text) :
    (start w memory root before).Sound strict root := by
  refine ⟨hw, ?_⟩
  intro task htask
  obtain rfl : task = ⟨some root, .start w.store (.root (some root))⟩ := by
    simpa [start, push, Cursor.element] using htask
  have hroot : (Cursor.root (some root)).Proper root := rfl
  refine ⟨fun visit hvisit => ?_, fun visit hvisit => ?_⟩
  all_goals rw [agenda_start] at hvisit
  · exact (Visit.opened_sound hw.typed hroot rfl hvisit).1
  · exact (Visit.opened_sound hw.typed hroot rfl hvisit).2

end Run

end ScriptSimplifier
