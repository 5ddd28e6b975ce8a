import Mathlib.Algebra.GroupWithZero.Nat
import ScriptSimplifier.Proofs.Pass.NodeWalks

/-!
# The pending walks

What is true of the pending walks of every run, whatever the rules are.  No two of them start from
the same element (`steps_distinct`), and every walk that was ever scheduled is pending, exhausted or
dropped (`steps_account`).  Both are kept by a step, which is taken apart with `step_cases`.
`pending_walks` puts this together with what an edit does to the pending walks, and with the order
in which they are gone through.
-/

namespace ScriptSimplifier

variable {σ : Type} {pass : Pass σ} {root : Ref} {run : Run σ} {safe : Workspace → σ → Prop}

/-! ## Accounts -/

/-- The edits that are counted for the rules. -/
def Stats.credited (stats : Stats) : Nat := (stats.perRule.map Prod.snd).sum

theorem Stats.sum_addTo (name : Text) (n : Nat) (counts : List (Text × Nat)) :
    ((addTo name n counts).map Prod.snd).sum = (counts.map Prod.snd).sum + n := by
  induction counts with
  | nil => simp [addTo]
  | cons count rest ih =>
    obtain ⟨other, m⟩ := count
    unfold addTo
    by_cases hname : other = name
    · rw [if_pos hname]
      simp only [List.map_cons, List.sum_cons]
      omega
    · rw [if_neg hname]
      simp only [List.map_cons, List.sum_cons, ih]
      omega

theorem Stats.credited_applied (stats : Stats) (rule : Text) :
    (stats.applied rule).credited = stats.credited + 1 := sum_addTo rule 1 stats.perRule

namespace Run

/-- Whether the next step pulls a place from the first pending walk. -/
def pulls (run : Run σ) : Bool := run.pull?.isSome

/-- How many of the steps of a run are of a kind. -/
def countSteps (pass : Pass σ) (root : Ref) (kind : Run σ → Bool) : (fuel : Nat) → Run σ → Nat
  | 0, _ => 0
  | fuel + 1, run =>
    (kind run).toNat +
      match step pass root run with
      | .going next => countSteps pass root kind fuel next
      | .ended _ _ => 0

/-- The statistics and the pending walks of two states of a run agree with what happened in between:
so many walks were exhausted, and so many places pulled. -/
structure Accounts (before after : Run σ) (exhausted pulled : Nat) : Prop where
  walks : after.stats.tasks + before.stats.discarded + before.tasks.length =
    before.stats.tasks + after.stats.discarded + after.tasks.length + exhausted
  places : after.stats.visits + after.stats.skipped =
    before.stats.visits + before.stats.skipped + pulled
  edits : after.stats.operations + before.stats.credited =
    before.stats.operations + after.stats.credited

theorem Accounts.refl (run : Run σ) : run.Accounts run 0 0 := ⟨rfl, rfl, rfl⟩

theorem Accounts.trans {before between after : Run σ} {exhausted exhausted' pulled pulled' : Nat}
    (h : before.Accounts between exhausted pulled)
    (h' : between.Accounts after exhausted' pulled') :
    before.Accounts after (exhausted + exhausted') (pulled + pulled') := by
  obtain ⟨hwalks, hplaces, hedits⟩ := h
  obtain ⟨hwalks', hplaces', hedits'⟩ := h'
  exact ⟨by omega, by omega, by omega⟩

theorem pull?_length {place : Cursor} {left : Run σ} (h : run.pull? = some (place, left)) :
    left.tasks.length = run.tasks.length := by
  obtain ⟨-, -, -, hroots, -⟩ := pull?_left h
  simpa using congrArg List.length hroots

theorem Coasts.accounts {progress : Progress σ} (h : run.Coasts progress) :
    run.Accounts progress.left run.exhausts.toNat 0 := by
  cases h with
  | finished htasks =>
    have hexhausts : run.exhausts = false := by rw [exhausts, htasks]; rfl
    rw [hexhausts]
    exact .refl run
  | closed htasks hstops =>
    have hexhausts : run.exhausts = true := by simp [exhausts, htasks, Walk.isDone, hstops]
    rw [hexhausts]
    refine ⟨?_, rfl, rfl⟩
    rw [htasks]
    rfl
  | moved htasks hstops =>
    have hexhausts : run.exhausts = false := by simp [exhausts, htasks, Walk.isDone, hstops]
    rw [hexhausts]
    refine ⟨?_, rfl, rfl⟩
    rw [htasks]
    rfl

/-- Scheduling walks and dropping others keeps the accounts. -/
theorem accounts_reschedule (run : Run σ) (edit : Edit) :
    run.Accounts (run.reschedule edit) 0 0 := by
  rw [reschedule_touched]
  refine ⟨?_, rfl, rfl⟩
  -- a pending walk is dropped or stays
  have hsplit := List.length_eq_length_filter_add
    (l := run.tasks) fun task => task.startsAt (edit.touched run.workspace.store)
  simp only [List.length_append, List.length_map, List.length_reverse]
  omega

theorem Performs.accounts {last : Run σ} {rule : Text} {edit : Edit}
    (h : run.Performs rule edit last) : run.Accounts last 0 0 := by
  have happlied : ∀ store, run.Accounts
      { run with workspace := { run.workspace with store }, stats := run.stats.applied rule }
      0 0 := by
    intro store
    refine ⟨rfl, rfl, ?_⟩
    have hcredited := run.stats.credited_applied rule
    have hoperations : (run.stats.applied rule).operations = run.stats.operations + 1 := rfl
    show (run.stats.applied rule).operations + run.stats.credited =
      run.stats.operations + (run.stats.applied rule).credited
    omega
  cases h with
  | limited => exact .refl run
  | failed => exact ⟨rfl, rfl, rfl⟩
  | invalid => exact happlied _
  | applied => exact (happlied _).trans (accounts_reschedule _ edit)

/-- A step keeps the accounts. -/
theorem step_accounts (pass : Pass σ) (root : Ref) (run : Run σ) :
    run.Accounts (step pass root run).left run.exhausts.toNat run.pulls.toNat := by
  have hcases := step_cases pass root run
  generalize step pass root run = progress at hcases
  -- a pulled place is counted as visited, whatever becomes of it
  have hvisited : ∀ {place left} (w : Workspace) (memory : σ), run.pull? = some (place, left) →
      run.Accounts ⟨w, memory, left.tasks, { run.stats with visits := run.stats.visits + 1 }⟩
        run.exhausts.toNat run.pulls.toNat := by
    intro place left w memory hpull
    obtain ⟨-, -, -, -, hexhausts⟩ := pull?_left hpull
    have hpulls : run.pulls = true := by rw [pulls, hpull]; rfl
    rw [hexhausts, hpulls]
    refine ⟨?_, Nat.add_right_comm _ _ _, rfl⟩
    show _ = _ + left.tasks.length + 0
    rw [pull?_length hpull]
    rfl
  cases hcases with
  | coasted hpull hcoasts =>
    have hpulls : run.pulls = false := by rw [pulls, hpull]; rfl
    rw [hpulls]
    exact hcoasts.accounts
  | skipped hpull =>
    obtain ⟨-, -, -, -, hexhausts⟩ := pull?_left hpull
    have hpulls : run.pulls = true := by rw [pulls, hpull]; rfl
    rw [hexhausts, hpulls]
    refine ⟨?_, rfl, rfl⟩
    show _ = _ + List.length _ + 0
    rw [← pull?_length hpull]
    rfl
  | declined hpull => exact hvisited _ _ hpull
  | faulted hpull => exact hvisited _ _ hpull
  | @attempted attempt hattempt =>
    obtain ⟨place, left, w, memory, hpull, -, -, hrun⟩ := attempt?_eq_some hattempt
    have hperforms := perform_performs pass root attempt.run attempt.place attempt.rule
      attempt.edit
    have hattempted : run.Accounts attempt.run run.exhausts.toNat run.pulls.toNat := by
      rw [hrun]
      exact hvisited w memory hpull
    exact hattempted.trans hperforms.accounts

/-- A run keeps the accounts. -/
theorem steps_account (pass : Pass σ) (root : Ref) (fuel : Nat) (run : Run σ) :
    run.Accounts (run.steps pass root fuel).1 (countSteps pass root exhausts fuel run)
      (countSteps pass root pulls fuel run) := by
  induction fuel generalizing run with
  | zero => exact .refl run
  | succ fuel ih =>
    have hstep := step_accounts pass root run
    unfold steps countSteps
    cases h : step pass root run with
    | going next =>
      rw [h] at hstep
      exact hstep.trans (ih next)
    | ended last ending =>
      -- the step that ends the run counts, too
      rw [h] at hstep
      exact hstep

/-! ## Distinct roots -/

/-- The pending walks start from different elements. -/
def Distinct (run : Run σ) : Prop := (run.tasks.map Task.root).Nodup

theorem distinct_start (w : Workspace) (memory : σ) (root : Ref) (before : Text) :
    (start w memory root before).Distinct := List.nodup_singleton _

/-- The fresh walks start from different elements, and all others from these were dropped. -/
theorem Distinct.reschedule (h : run.Distinct) (edit : Edit) : (run.reschedule edit).Distinct := by
  have hfresh := touched_pairwise run.workspace.store edit
  rw [reschedule_touched]
  unfold Distinct
  rw [List.map_append, List.nodup_append]
  refine ⟨?_, ?_, ?_⟩
  · rw [List.map_map, List.map_reverse, List.nodup_reverse, List.Nodup, List.pairwise_map]
    exact hfresh.imp fun hne => hne.symm
  · exact List.Nodup.sublist (List.filter_sublist.map Task.root) h
  · intro e he e' he'
    obtain ⟨fresh, hfresh, rfl⟩ := List.mem_map.mp he
    obtain ⟨place, hplace, rfl⟩ := List.mem_map.mp hfresh
    obtain ⟨task, htask, rfl⟩ := List.mem_map.mp he'
    obtain ⟨-, hkept⟩ := List.mem_filter.mp htask
    intro heq
    -- a walk that stays does not start where a fresh one does
    have hstarts : task.startsAt (edit.touched run.workspace.store) = true :=
      List.any_eq_true.mpr ⟨place, List.mem_reverse.mp hplace, beq_iff_eq.mpr heq⟩
    rw [hstarts] at hkept
    cases hkept

/-- A step keeps the roots of the pending walks apart. -/
theorem Distinct.step (h : run.Distinct) : (step pass root run).left.Distinct := by
  have hcases := step_cases pass root run
  generalize Run.step pass root run = progress at hcases
  have hpulled : ∀ {place left} (w : Workspace) (memory : σ) (stats : Stats),
      run.pull? = some (place, left) → Distinct ⟨w, memory, left.tasks, stats⟩ := by
    intro place left w memory stats hpull
    obtain ⟨-, -, -, hroots, -⟩ := pull?_left hpull
    show (left.tasks.map Task.root).Nodup
    rw [hroots]
    exact h
  cases hcases with
  | coasted _ hcoasts =>
    cases hcoasts with
    | finished => exact h
    | closed htasks =>
      unfold Distinct at h
      rw [htasks] at h
      exact (List.nodup_cons.mp h).2
    | moved htasks =>
      unfold Distinct at h
      rw [htasks] at h
      exact h
  | skipped hpull => exact hpulled _ _ _ hpull
  | declined hpull => exact hpulled _ _ _ hpull
  | faulted hpull => exact hpulled _ _ _ hpull
  | @attempted attempt hattempt =>
    obtain ⟨place, left, w, memory, hpull, -, -, hrun⟩ := attempt?_eq_some hattempt
    have hattempted : attempt.run.Distinct := by
      rw [hrun]
      exact hpulled w memory _ hpull
    have hperforms := perform_performs pass root attempt.run attempt.place attempt.rule
      attempt.edit
    generalize (perform pass root attempt.run attempt.place attempt.rule attempt.edit).left = last
      at hperforms
    cases hperforms with
    -- only an edit after which the run goes on schedules anything
    | limited => exact hattempted
    | failed => exact hattempted
    | invalid => exact hattempted
    | applied =>
      refine Distinct.reschedule ?_ attempt.edit
      exact hattempted

theorem steps_distinct (h : run.Distinct) (fuel : Nat) :
    (run.steps pass root fuel).1.Distinct :=
  steps_keep (P := Distinct) (fun _ hrun => hrun.step) h fuel

/-! ## The discipline of the pending walks -/

/-- What becomes of the pending walks when an attempt is carried out: those that start at a touched
place are dropped, the others stay as they are, and fresh walks stand before them. -/
theorem outcome_tasks {attempt : Attempt σ} {next : Run σ}
    (h : attempt.outcome pass root = .going next) :
    ∃ store, attempt.edit.apply (some attempt.run.workspace.pool) attempt.run.workspace.store =
        (store, none) ∧
      next.workspace = { attempt.run.workspace with store } ∧
      next.tasks = (attempt.edit.touched store).reverse.map (Task.through store) ++
        attempt.run.tasks.filter (fun task => !task.startsAt (attempt.edit.touched store)) ∧
      next.stats.discarded = attempt.run.stats.discarded +
        (attempt.run.tasks.filter (·.startsAt (attempt.edit.touched store))).length := by
  obtain ⟨store, -, happly, -, rfl⟩ := perform_going h
  rw [reschedule_touched]
  exact ⟨store, happly, rfl, rfl, rfl⟩

/-- The pending walks of every run, whatever the rules are.

They start from different elements; if the rules make up no references, from nodes.  An edit that
is applied drops exactly those that start at a place it touched; the lists among its places count
as the nodes that own them.  The others stay as they are and in order, behind one fresh walk for
each of these places, that of the last place first.  They wait: as long as the run that has only the
fresh walks goes on, they stand behind what that run has.  At any time, the walks that were
scheduled are those that were dropped or exhausted and those that are pending, the places that were
pulled are those that were visited or skipped, and the edits are those that are counted for the
rules. -/
theorem pending_walks (pass : Pass σ) (w : Workspace) (memory : σ) (root : Ref) :
    (∀ fuel, ((first w memory root).steps pass root fuel).1.Distinct) ∧
    (∀ safe, Lasting safe → (∀ rule ∈ pass.rules, rule.Handles safe) → w.store.Closed →
      w.store.Known root → w.store.isList root = false → safe w memory →
      (∀ fuel, ∀ task ∈ ((first w memory root).steps pass root fuel).1.tasks,
        task.FromNode ((first w memory root).steps pass root fuel).1.workspace.store) ∧
      ∀ k attempt store, (first w memory root).AttemptsAt pass root k attempt →
        attempt.edit.apply (some attempt.run.workspace.pool) attempt.run.workspace.store =
          (store, none) →
        ∀ d ∈ attempt.edit.invalidated, d.nodePlace? store = some (retraced store d)) ∧
    (∀ k attempt next, (first w memory root).AttemptsAt pass root k attempt →
      attempt.outcome pass root = .going next →
      ∃ store fresh older,
        attempt.edit.apply (some attempt.run.workspace.pool) attempt.run.workspace.store =
          (store, none) ∧
        fresh = (attempt.edit.touched store).reverse.map (Task.through store) ∧
        older = attempt.run.tasks.filter
          (fun task => !task.startsAt (attempt.edit.touched store)) ∧
        next.workspace = { attempt.run.workspace with store } ∧
        next.tasks = fresh ++ older ∧
        next.stats.discarded = attempt.run.stats.discarded +
          (attempt.run.tasks.filter (·.startsAt (attempt.edit.touched store))).length ∧
        ∀ n later, next.steps pass root n = (later, none) →
          (∃ m < n, ∃ done, ({ next with tasks := fresh } : Run σ).steps pass root m =
            (done, none) ∧ done.tasks = []) ∨
          ∃ alone kept, ({ next with tasks := fresh } : Run σ).steps pass root n =
              (alone, none) ∧
            kept.Sublist older ∧ later.tasks = alone.tasks ++ kept ∧
            later.workspace = alone.workspace ∧ later.memory = alone.memory) ∧
    ∀ fuel last, ((first w memory root).steps pass root fuel).1 = last →
      last.stats.tasks = last.stats.discarded +
        countSteps pass root exhausts fuel (first w memory root) + last.tasks.length ∧
      countSteps pass root pulls fuel (first w memory root) =
        last.stats.visits + last.stats.skipped ∧
      last.stats.operations = last.stats.credited := by
  refine ⟨?_, ?_, ?_, ?_⟩
  · intro fuel
    exact steps_distinct (distinct_start w memory root _) fuel
  · intro safe hsafe hrules hclosed hknown hnode hmemory
    have hfirst : (first w memory root).Issued safe :=
      issued_start hclosed hknown hnode hmemory _
    refine ⟨fun fuel task htask => ?_, ?_⟩
    · exact ((steps_issued hfirst hsafe hrules fuel).tasks task htask).fromNode
    · rintro k attempt store ⟨there, hthere, hattempt⟩ happly d hd
      have hissued : ((first w memory root).steps pass root k).1.Issued safe :=
        steps_issued hfirst hsafe hrules k
      rw [hthere] at hissued
      obtain ⟨hrun, hplaces⟩ := hissued.attempted hrules hattempt
      have hretains := (Edit.apply_retains (some attempt.run.workspace.pool) hrun.closed hplaces).1
      rw [happly] at hretains
      exact ((hplaces d hd).retain hretains).retraced.1
  · intro k attempt next _ hnext
    obtain ⟨store, happly, hworkspace, htasks, hdiscarded⟩ := outcome_tasks hnext
    refine ⟨store, _, _, happly, rfl, rfl, hworkspace, htasks, hdiscarded, ?_⟩
    intro n later hlater
    -- the run with the older walks behind the fresh ones is the run itself
    have hnext : next = ({ next with
        tasks := (attempt.edit.touched store).reverse.map (Task.through store) } :
          Run σ).followedBy
        (attempt.run.tasks.filter fun task => !task.startsAt (attempt.edit.touched store))
        next.stats := by
      rw [followedBy, ← htasks]
    rw [hnext] at hlater
    rcases steps_wait rfl hlater with hdone | ⟨alone, kept, stats, halone, hkept, rfl⟩
    · exact .inl hdone
    · exact .inr ⟨alone, kept, halone, hkept, rfl, rfl, rfl⟩
  · rintro fuel last rfl
    obtain ⟨hwalks, hplaces, hedits⟩ := steps_account pass root fuel (first w memory root)
    -- a run starts with one scheduled walk, which is pending
    have hstart : (first w memory root).stats.tasks = 1 ∧
        (first w memory root).stats.discarded = 0 ∧ (first w memory root).tasks.length = 1 ∧
        (first w memory root).stats.visits = 0 ∧ (first w memory root).stats.skipped = 0 ∧
        (first w memory root).stats.operations = 0 ∧
        (first w memory root).stats.credited = 0 := ⟨rfl, rfl, rfl, rfl, rfl, rfl, rfl⟩
    omega

theorem dropItems_handles : dropItems.Handles fun _ _ => True := by
  intro place w memory proposal hw hplace _ h
  unfold dropItems Rule.plain at h
  dsimp only at h
  by_cases hitem : place.inList = true
  · rw [if_pos hitem] at h
    obtain rfl := Except.ok.inj h
    refine ⟨.refl _, hw, trivial, ?_⟩
    intro edit hedit d hd
    obtain rfl := Option.some.inj hedit
    exact hplace.parent hd
  · rw [if_neg hitem] at h
    obtain rfl := Except.ok.inj h
    exact ⟨.refl _, hw, trivial, fun _ hedit => nomatch hedit⟩

/-- The walk that comes to the first of two items is dropped with the item, for a fresh one from the
same node. -/
theorem pending_walks_twoItems :
    (∀ fuel, ∀ task ∈ ((first twoItems () (.cell 1)).steps dropPass (.cell 1) fuel).1.tasks,
      task.FromNode
        ((first twoItems () (.cell 1)).steps dropPass (.cell 1) fuel).1.workspace.store) ∧
    ∃ attempt next store,
      (first twoItems () (.cell 1)).AttemptsAt dropPass (.cell 1) 2 attempt ∧
      attempt.outcome dropPass (.cell 1) = .going next ∧
      next.tasks = (attempt.edit.touched store).reverse.map (Task.through store) ++
        attempt.run.tasks.filter (fun task => !task.startsAt (attempt.edit.touched store)) ∧
      next.tasks.length = 1 ∧ next.stats.discarded = 1 := by
  have hsafe : Lasting fun (_ : Workspace) (_ : Unit) => True := fun _ _ _ _ _ => trivial
  have hrules : ∀ rule ∈ dropPass.rules, rule.Handles fun _ _ => True := by
    intro rule hrule
    obtain rfl := List.mem_singleton.mp hrule
    exact dropItems_handles
  obtain ⟨-, hnodes, hscheduled, -⟩ := pending_walks dropPass twoItems () (.cell 1)
  have hknown : twoItems.store.Known (.cell 1) := Nat.one_lt_two
  refine ⟨(hnodes _ hsafe hrules twoItems_closed hknown rfl trivial).1, ?_⟩
  obtain ⟨last, hlast⟩ : ∃ last, last =
      ((first twoItems () (.cell 1)).steps dropPass (.cell 1) 2).1 := ⟨_, rfl⟩
  have hending : ((first twoItems () (.cell 1)).steps dropPass (.cell 1) 2).2 = none := by
    decide +kernel
  have hgoing : (first twoItems () (.cell 1)).steps dropPass (.cell 1) 2 = (last, none) :=
    Prod.ext hlast.symm hending
  have hcarried : (last.attempt? dropPass.rules).any (fun attempt =>
      (attempt.outcome dropPass (.cell 1)).going?.any fun next =>
        next.tasks.length == 1 && next.stats.discarded == 1) = true := by
    rw [hlast]
    decide +kernel
  obtain ⟨attempt, hattempt, hcarried⟩ := (Option.any_eq_true _ _).mp hcarried
  have hthere : (first twoItems () (.cell 1)).AttemptsAt dropPass (.cell 1) 2 attempt :=
    ⟨last, hgoing, hattempt⟩
  cases hnext : attempt.outcome dropPass (.cell 1) with
  | ended last ending =>
    rw [hnext] at hcarried
    cases hcarried
  | going next =>
    rw [hnext] at hcarried
    have hcounts : next.tasks.length = 1 ∧ next.stats.discarded = 1 := by
      simpa [Progress.going?] using hcarried
    obtain ⟨store, _, _, -, rfl, rfl, -, htasks, -, -⟩ := hscheduled 2 attempt next hthere hnext
    exact ⟨attempt, next, store, hthere, hnext, htasks, hcounts⟩

end Run

end ScriptSimplifier
