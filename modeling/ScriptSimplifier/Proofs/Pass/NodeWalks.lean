import ScriptSimplifier.Proofs.Pass.Scheduling
import ScriptSimplifier.Proofs.Rule.Handling

/-!
# Walks from nodes

If the rules of a pass make up no references, then a run has none but those that were given out, and
every pending walk starts from a node (`steps_issued`).  A walk starts at a place that an edit
touched, and a list is touched as the node that owns it.
-/

namespace ScriptSimplifier

variable {σ : Type} {pass : Pass σ} {root : Ref} {run : Run σ} {safe : Workspace → σ → Prop}

/-! ## Walks -/

/-- A walk that starts from a node. -/
def Task.FromNode (s : Store) (task : Task) : Prop :=
  ∃ r, task.root = some r ∧ s.Known r ∧ s.isList r = false

/-- A walk from a node, through places that were given out. -/
structure Task.Issued (s : Store) (task : Task) : Prop where
  fromNode : task.FromNode s
  stops : ∀ stop ∈ task.walk.stops, stop.place.Issued s ∧ ∀ d ∈ stop.ahead, d.Issued s

theorem Task.FromNode.retain {s t : Store} {task : Task} (h : task.FromNode s)
    (hst : s.Retains t) : task.FromNode t := by
  obtain ⟨r, hr, hknown, hlist⟩ := h
  refine ⟨r, hr, hst.known r hknown, ?_⟩
  rw [hst.isList r hknown]
  exact hlist

theorem Task.Issued.retain {s t : Store} {task : Task} (h : task.Issued s) (hst : s.Retains t) :
    task.Issued t := by
  refine ⟨h.fromNode.retain hst, ?_⟩
  intro stop hstop
  obtain ⟨hplace, hahead⟩ := h.stops stop hstop
  exact ⟨hplace.retain hst, fun d hd => (hahead d hd).retain hst⟩

/-- Entering a place that was given out leads to places that were given out. -/
theorem Walk.enter_issued {s : Store} (hs : s.Closed) {walk : Walk} {place : Cursor}
    (hwalk : ∀ stop ∈ walk.stops, stop.place.Issued s ∧ ∀ d ∈ stop.ahead, d.Issued s)
    (hplace : place.Issued s) :
    ∀ stop ∈ (Walk.enter s walk place).stops,
      stop.place.Issued s ∧ ∀ d ∈ stop.ahead, d.Issued s := by
  unfold Walk.enter
  split
  · exact hwalk
  · intro stop hstop
    rcases List.mem_cons.mp hstop with rfl | hstop
    · exact ⟨hplace, fun d hd => hplace.children hs hd⟩
    · exact hwalk stop hstop

/-- A touched place is a node, if the places of the edit were given out. -/
theorem Edit.touched_issued {s : Store} {edit : Edit} (hedit : ∀ d ∈ edit.invalidated, d.Issued s)
    {c : Cursor} (hc : c ∈ edit.touched s) :
    c.Issued s ∧ ∃ r, c.element = some r ∧ s.Known r ∧ s.isList r = false := by
  rw [← Run.tainted_eq] at hc
  obtain ⟨d, hd, hrefresh, hsome⟩ := Run.mem_tainted hc
  obtain ⟨-, hretraced, hlist⟩ := (hedit d hd).retraced
  obtain ⟨helement, hissued⟩ := Cursor.refresh?_issued hrefresh
  have hcissued := hissued hretraced
  obtain ⟨r, hr⟩ := Option.isSome_iff_exists.mp hsome
  refine ⟨hcissued, r, hr, hcissued.knownAt r hr, ?_⟩
  rw [← helement, hr] at hlist
  exact hlist

theorem Task.through_issued {s : Store} (hs : s.Closed) {c : Cursor} (hc : c.Issued s)
    (hnode : ∃ r, c.element = some r ∧ s.Known r ∧ s.isList r = false) :
    (Task.through s c).Issued s := by
  refine ⟨hnode, Walk.enter_issued hs ?_ hc⟩
  intro stop hstop
  cases hstop

/-! ## Runs -/

namespace Run

/-- A run in which all references were given out, and every pending walk starts from a node. -/
structure Issued (safe : Workspace → σ → Prop) (run : Run σ) : Prop where
  closed : run.workspace.store.Closed
  memory : safe run.workspace run.memory
  tasks : ∀ task ∈ run.tasks, task.Issued run.workspace.store

theorem issued_start {w : Workspace} {memory : σ} (hw : w.store.Closed)
    (hroot : w.store.Known root) (hnode : w.store.isList root = false) (hmemory : safe w memory)
    (before : Text) : (start w memory root before).Issued safe := by
  refine ⟨hw, hmemory, ?_⟩
  intro task htask
  obtain rfl := List.mem_singleton.mp htask
  exact Task.through_issued hw ⟨Store.knownAt_some.mpr hroot, hnode⟩ ⟨root, rfl, hroot, hnode⟩

theorem Issued.pulled (h : run.Issued safe) {place : Cursor} {left : Run σ}
    (hpull : run.pull? = some (place, left)) :
    place.Issued run.workspace.store ∧ ∀ task ∈ left.tasks, task.Issued run.workspace.store := by
  obtain ⟨task, rest, outer, htasks, hstops, rfl⟩ := pull?_eq_some hpull
  have hfirst := h.tasks task (htasks ▸ List.mem_cons_self)
  have hstop := hfirst.stops
  rw [hstops] at hstop
  refine ⟨(hstop _ List.mem_cons_self).1, ?_⟩
  intro task' htask'
  rcases List.mem_cons.mp htask' with rfl | htask'
  · exact ⟨hfirst.fromNode, fun stop hmem => hstop stop (List.mem_cons_of_mem _ hmem)⟩
  · exact h.tasks task' (htasks ▸ List.mem_cons_of_mem _ htask')

/-- What a pulled place is offered to leaves references that were given out. -/
theorem Issued.offered (h : run.Issued safe) (hrules : ∀ rule ∈ pass.rules, rule.Handles safe)
    {place fresh : Cursor} {left : Run σ} (hpull : run.pull? = some (place, left))
    (hfresh : place.refresh? run.workspace.store = some fresh) :
    Proposal.Handled safe run.workspace.store
      (offer fresh run.workspace run.memory pass.rules).proposal :=
  handled_offer hrules h.closed ((Cursor.refresh?_issued hfresh).2 (h.pulled hpull).1) h.memory

/-- The run after a proposal. -/
theorem Issued.answered (h : run.Issued safe) {place : Cursor} {left : Run σ}
    (hpull : run.pull? = some (place, left)) {proposal : Proposal σ}
    (hproposal : proposal.Handled safe run.workspace.store) (stats : Stats) :
    Run.Issued safe ⟨proposal.workspace, proposal.memory, left.tasks, stats⟩ := by
  refine ⟨hproposal.closed, hproposal.memory, ?_⟩
  intro task htask
  exact ((h.pulled hpull).2 task htask).retain hproposal.retains

/-- What is attempted is made of references that were given out. -/
theorem Issued.attempted (h : run.Issued safe) (hrules : ∀ rule ∈ pass.rules, rule.Handles safe)
    {attempt : Attempt σ} (hattempt : run.attempt? pass.rules = some attempt) :
    attempt.run.Issued safe ∧
      ∀ d ∈ attempt.edit.invalidated, d.Issued attempt.run.workspace.store := by
  obtain ⟨place, left, w, memory, hpull, hfresh, hoffer, hrun⟩ := attempt?_eq_some hattempt
  have hhandled := h.offered hrules hpull hfresh
  rw [hoffer] at hhandled
  rw [hrun]
  exact ⟨h.answered hpull hhandled _, hhandled.places attempt.edit rfl⟩

/-- Applying an edit leaves references that were given out. -/
theorem Issued.applied (h : run.Issued safe) (hsafe : Lasting safe) {edit : Edit}
    (hplaces : ∀ d ∈ edit.invalidated, d.Issued run.workspace.store) (stats : Stats) :
    Run.Issued safe { run with
      workspace := { run.workspace with
        store := (edit.apply (some run.workspace.pool) run.workspace.store).1 }
      stats } := by
  obtain ⟨hretains, hclosed⟩ := Edit.apply_retains (some run.workspace.pool) h.closed hplaces
  refine ⟨hclosed, hsafe _ _ _ h.memory hretains, ?_⟩
  intro task htask
  exact (h.tasks task htask).retain hretains

/-- The fresh walks start from nodes, too. -/
theorem Issued.reschedule (h : run.Issued safe) {edit : Edit}
    (hplaces : ∀ d ∈ edit.invalidated, d.Issued run.workspace.store) :
    (run.reschedule edit).Issued safe := by
  rw [reschedule_touched]
  refine ⟨h.closed, h.memory, ?_⟩
  intro task htask
  rcases List.mem_append.mp htask with hfresh | hkept
  · obtain ⟨c, hc, rfl⟩ := List.mem_map.mp hfresh
    obtain ⟨hissued, hnode⟩ := Edit.touched_issued hplaces (List.mem_reverse.mp hc)
    exact Task.through_issued h.closed hissued hnode
  · exact h.tasks task (List.mem_of_mem_filter hkept)

theorem Issued.perform (h : run.Issued safe) (hsafe : Lasting safe) {edit : Edit}
    (hplaces : ∀ d ∈ edit.invalidated, d.Issued run.workspace.store) (place : Cursor)
    (rule : Text) : (perform pass root run place rule edit).left.Issued safe := by
  have happlied := fun stats => h.applied hsafe hplaces stats
  have hretains := (Edit.apply_retains (some run.workspace.pool) h.closed hplaces).1
  have hperforms := perform_performs pass root run place rule edit
  generalize (Run.perform pass root run place rule edit).left = last at hperforms
  cases hperforms with
  | limited => exact h
  -- what a failed edit has written stays written
  | failed happly =>
    rw [happly] at happlied
    exact happlied _
  | invalid happly =>
    rw [happly] at happlied
    exact happlied _
  | applied happly =>
    rw [happly] at happlied hretains
    exact (happlied _).reschedule fun d hd => (hplaces d hd).retain hretains

/-- A step leaves references that were given out. -/
theorem Issued.step (h : run.Issued safe) (hsafe : Lasting safe)
    (hrules : ∀ rule ∈ pass.rules, rule.Handles safe) : (step pass root run).left.Issued safe := by
  have hcases := step_cases pass root run
  generalize Run.step pass root run = progress at hcases
  cases hcases with
  | coasted _ hcoasts =>
    cases hcoasts with
    | finished => exact h
    | closed htasks =>
      refine ⟨h.closed, h.memory, ?_⟩
      intro task htask
      exact h.tasks task (htasks ▸ List.mem_cons_of_mem _ htask)
    -- the walk enters a place that it noted when it came to the one above
    | @moved task rest place next ahead outer htasks hstops =>
      have hfirst := h.tasks task (htasks ▸ List.mem_cons_self)
      have hstop := hfirst.stops
      rw [hstops] at hstop
      obtain ⟨hplace, hahead⟩ := hstop _ List.mem_cons_self
      refine ⟨h.closed, h.memory, ?_⟩
      intro task' htask'
      rcases List.mem_cons.mp htask' with rfl | htask'
      · refine ⟨hfirst.fromNode, ?_⟩
        refine Walk.enter_issued h.closed ?_ (hahead next List.mem_cons_self)
        intro stop hmem
        rcases List.mem_cons.mp hmem with rfl | hmem
        · exact ⟨hplace, fun d hd => hahead d (List.mem_cons_of_mem _ hd)⟩
        · exact hstop stop (List.mem_cons_of_mem _ hmem)
      · exact h.tasks task' (htasks ▸ List.mem_cons_of_mem _ htask')
  | skipped hpull =>
    obtain ⟨hworkspace, hmemory, -, -, -⟩ := pull?_left hpull
    have htasks := (h.pulled hpull).2
    rw [← hworkspace] at htasks
    refine ⟨?_, ?_, htasks⟩
    · show Store.Closed _
      rw [hworkspace]
      exact h.closed
    · show safe _ _
      rw [hworkspace, hmemory]
      exact h.memory
  | declined hpull hfresh hoffer =>
    have hhandled := h.offered hrules hpull hfresh
    rw [hoffer] at hhandled
    exact h.answered hpull hhandled _
  | faulted hpull hfresh hoffer =>
    have hhandled := h.offered hrules hpull hfresh
    rw [hoffer] at hhandled
    exact h.answered hpull hhandled _
  | attempted hattempt =>
    obtain ⟨hissued, hplaces⟩ := h.attempted hrules hattempt
    exact hissued.perform hsafe hplaces _ _

theorem steps_issued (h : run.Issued safe) (hsafe : Lasting safe)
    (hrules : ∀ rule ∈ pass.rules, rule.Handles safe) (fuel : Nat) :
    (run.steps pass root fuel).1.Issued safe :=
  steps_keep (P := Run.Issued safe) (fun _ hrun => hrun.step hsafe hrules) h fuel

end Run

/-! ## The script of two empty statements -/

theorem twoItems_holds {p c : Ref} (h : twoItems.store.Holds p c) :
    p = .cell 0 ∧ c = .emptyStatement ∨ p = .cell 1 ∧ c = .cell 0 := by
  obtain ⟨n, rfl, hn⟩ := h.cell
  obtain rfl | rfl : n = 0 ∨ n = 1 := by
    have hlt : n < 2 := hn
    omega
  · exact .inl ⟨rfl, by simpa [Store.Holds, Store.below, Store.get, twoItems, Cell.below] using h⟩
  · exact .inr ⟨rfl, by simpa [Store.Holds, Store.below, Store.get, twoItems, Cell.below] using h⟩

theorem twoItems_closed : twoItems.store.Closed := by
  intro p c hholds
  rcases twoItems_holds hholds with ⟨-, rfl⟩ | ⟨-, rfl⟩
  · trivial
  · exact Nat.zero_lt_two

theorem twoItems_acyclic : twoItems.store.Acyclic := by
  have hother : ∀ r, r ≠ .cell 0 → r ≠ .cell 1 → Acc (fun c p => twoItems.store.Holds p c) r := by
    refine fun r hzero hone => ⟨r, fun c hholds => ?_⟩
    rcases twoItems_holds hholds with ⟨rfl, -⟩ | ⟨rfl, -⟩
    · exact absurd rfl hzero
    · exact absurd rfl hone
  have hlist : Acc (fun c p => twoItems.store.Holds p c) (.cell 0) := by
    refine ⟨_, fun c hholds => ?_⟩
    rcases twoItems_holds hholds with ⟨-, rfl⟩ | ⟨hne, -⟩
    · exact hother _ (by decide) (by decide)
    · exact absurd hne (by decide)
  have hscript : Acc (fun c p => twoItems.store.Holds p c) (.cell 1) := by
    refine ⟨_, fun c hholds => ?_⟩
    rcases twoItems_holds hholds with ⟨hne, -⟩ | ⟨-, rfl⟩
    · exact absurd hne (by decide)
    · exact hlist
  refine ⟨fun r => ?_⟩
  by_cases hzero : r = .cell 0
  · exact hzero ▸ hlist
  · by_cases hone : r = .cell 1
    · exact hone ▸ hscript
    · exact hother r hzero hone

theorem twoItems_shaped : twoItems.store.Shaped := by
  intro r label kids hr
  cases r with
  | emptyStatement => cases hr; rfl
  | null => cases hr; rfl
  | cell n =>
    rcases n with _ | _ | n
    · cases hr
    · cases hr
      rfl
    · cases hr
      rfl

end ScriptSimplifier
