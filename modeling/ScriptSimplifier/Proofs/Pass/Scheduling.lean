import ScriptSimplifier.Proofs.Pass.Attempts
import ScriptSimplifier.Proofs.Pass.Runs

/-!
# Scheduling

What an applied edit does to the pending walks, in one equation (`reschedule_tasks`): the walks that
start at a touched place are dropped, the others stay in order, and a fresh walk for every touched
place stands before them, that of the last place first.

The walks that stay wait until those before them are used up.  A run with walks behind does what the
run without them does (`step_behind`), and all it does to them is to drop some, until the run
without them has none left (`steps_behind`).  Nothing is assumed of the rules.
-/

namespace ScriptSimplifier

/-- The walk through everything at a place. -/
def Task.through (s : Store) (place : Cursor) : Task := ⟨place.element, .start s place⟩

/-- Whether a pending walk started from the element of one of some places. -/
def Task.startsAt (places : List Cursor) (task : Task) : Bool :=
  places.any (·.element == task.root)

/-- The places that an edit touched, as they are in a store: lists are walked from their owners,
what is detached or empty is left out, and every element stands for one place. -/
def Edit.touched (edit : Edit) (s : Store) : List Cursor :=
  ((edit.invalidated.filterMap fun d => (Run.retraced s d).refresh? s).filter
    (·.element.isSome)).eraseDupsBy fun c d => c.element == d.element

namespace Run

variable {σ : Type} {pass : Pass σ} {root : Ref} {run : Run σ} {s : Store} {edit : Edit}

/-! ## Touched places -/

/-- The places are gathered in order, without those whose element was found before. -/
theorem tainted_eq (s : Store) (edit : Edit) : tainted s edit = edit.touched s := by
  have hgather : ∀ (places found : List Cursor), places.foldl (gather s) found =
        List.eraseDupsBy.loop (fun c d => c.element == d.element)
          ((places.filterMap fun d => (retraced s d).refresh? s).filter (·.element.isSome))
          found.reverse := by
    intro places
    -- the loop of `eraseDupsBy` keeps what it has found so far in reverse
    induction places with
    | nil =>
      intro found
      simp [List.eraseDupsBy.loop]
    | cons d rest ih =>
      intro found
      rw [List.foldl_cons, ih]
      unfold gather
      cases hfresh : (retraced s d).refresh? s with
      | none => simp [hfresh]
      | some fresh =>
        have hcomm : found.any (·.element == fresh.element) =
            found.reverse.any (fresh.element == ·.element) := by
          rw [List.any_reverse]
          exact congrArg found.any (funext fun c => BEq.comm)
        have hcons : (d :: rest).filterMap (fun d => (retraced s d).refresh? s) =
            fresh :: rest.filterMap (fun d => (retraced s d).refresh? s) :=
          List.filterMap_cons_some hfresh
        rw [hcons]
        cases hsome : fresh.element with
        | none => simp [hsome]
        | some r =>
          rw [hsome] at hcomm
          rw [List.filter_cons_of_pos (by rw [hsome]; rfl), List.eraseDupsBy.loop, hsome]
          cases hfound : found.reverse.any (some r == ·.element) with
          | true => simp only [hsome, hcomm, hfound, Option.isNone_some, Bool.false_or, if_true]
          | false =>
            simp only [hsome, hcomm, hfound, Option.isNone_some, Bool.false_or, Bool.false_eq_true,
              if_false, List.reverse_append, List.reverse_singleton, List.singleton_append]
  exact hgather edit.invalidated []

theorem pairwise_eraseDupsBy {α : Type*} (r : α → α → Bool) (l : List α) :
    (l.eraseDupsBy r).Pairwise fun a b => r b a = false := by
  have hloop : ∀ (l bs : List α), bs.reverse.Pairwise (fun a b => r b a = false) →
      (List.eraseDupsBy.loop r l bs).Pairwise fun a b => r b a = false := by
    intro l
    induction l with
    | nil => exact fun bs hbs => hbs
    | cons a rest ih =>
      intro bs hbs
      rw [List.eraseDupsBy.loop]
      cases hany : bs.any (r a) with
      | true => exact ih bs hbs
      | false =>
        apply ih
        rw [List.reverse_cons, List.pairwise_append]
        refine ⟨hbs, List.pairwise_singleton _ _, ?_⟩
        intro b hb c hc
        obtain rfl := List.mem_singleton.mp hc
        simpa using List.any_eq_false.mp hany b (List.mem_reverse.mp hb)
  exact hloop l [] List.Pairwise.nil

/-- Every element stands for one place. -/
theorem touched_pairwise (s : Store) (edit : Edit) :
    (edit.touched s).Pairwise fun c d => d.element ≠ c.element := by
  refine (pairwise_eraseDupsBy _ _).imp ?_
  intro c d h
  simpa using h

/-! ## One equation for scheduling -/

theorem length_filter_or {α : Type*} (p q : α → Bool) (l : List α) :
    l.length - (l.filter p).length + ((l.filter p).filter q).length =
      (l.filter fun a => !p a || q a).length := by
  induction l with
  | nil => rfl
  | cons a rest ih =>
    have hle := List.length_filter_le p rest
    cases hp : p a <;> cases hq : q a <;>
      simp only [List.filter_cons, hp, hq, Bool.not_false, Bool.not_true, Bool.true_or,
        Bool.false_or, Bool.or_false, Bool.false_eq_true, if_true, if_false, List.length_cons] <;>
      omega

theorem Task.startsAt_cons (c : Cursor) (rest : List Cursor) (task : Task) :
    task.startsAt (c :: rest) = (!(task.root != c.element) || task.startsAt rest) := by
  rw [Task.startsAt, List.any_cons, bne, Bool.not_not, BEq.comm]
  rfl

/-- Distinct places are scheduled one after the other, each before what there is. -/
theorem foldl_resume {places : List Cursor}
    (hplaces : places.Pairwise fun c d => d.element ≠ c.element) (run : Run σ) :
    places.foldl resume run =
      { run with
        tasks := places.reverse.map (Task.through run.workspace.store) ++
          run.tasks.filter fun task => !task.startsAt places
        stats := { run.stats with
          tasks := run.stats.tasks + places.length
          discarded := run.stats.discarded + (run.tasks.filter (·.startsAt places)).length } } := by
  induction places generalizing run with
  | nil =>
    have hall : run.tasks.filter (fun task => !task.startsAt []) = run.tasks :=
      List.filter_eq_self.mpr fun _ _ => rfl
    have hno : run.tasks.filter (·.startsAt []) = [] :=
      List.filter_eq_nil_iff.mpr fun _ _ => Bool.false_ne_true
    rw [hall, hno]
    rfl
  | cons c rest ih =>
    rw [List.pairwise_cons] at hplaces
    -- the walk that was just scheduled is not dropped again
    have hfresh : (Task.through run.workspace.store c).startsAt rest = false := by
      rw [Task.startsAt, List.any_eq_false]
      intro d hd
      simpa [Task.through] using hplaces.1 d hd
    have hstarts : (fun task => Task.startsAt (c :: rest) task) =
        fun task => !(task.root != c.element) || task.startsAt rest :=
      funext fun task => Task.startsAt_cons c rest task
    have htasks : (run.resume c).tasks = Task.through run.workspace.store c ::
        run.tasks.filter (·.root != c.element) := rfl
    have hkept : (run.resume c).tasks.filter (fun task => !task.startsAt rest) =
        Task.through run.workspace.store c ::
          run.tasks.filter fun task => !task.startsAt (c :: rest) := by
      rw [htasks, List.filter_cons_of_pos (by rw [hfresh]; rfl), List.filter_filter]
      congr 2
      funext task
      rw [Task.startsAt_cons, Bool.not_or, Bool.not_not, Bool.and_comm]
    have hdropped : (run.resume c).stats.discarded +
          ((run.resume c).tasks.filter (·.startsAt rest)).length =
        run.stats.discarded + (run.tasks.filter (·.startsAt (c :: rest))).length := by
      have hcount := length_filter_or (·.root != c.element) (·.startsAt rest) run.tasks
      rw [htasks, List.filter_cons_of_neg (by rw [hfresh]; exact Bool.false_ne_true), hstarts,
        ← hcount, ← Nat.add_assoc]
      rfl
    rw [List.foldl_cons, ih hplaces.2, hkept, hdropped, List.reverse_cons, List.map_append,
      List.append_assoc, List.length_cons]
    have htotal : (run.resume c).stats.tasks + rest.length =
        run.stats.tasks + (rest.length + 1) := by
      show run.stats.tasks + 1 + rest.length = _
      omega
    rw [htotal]
    rfl

/-- What an applied edit does to the pending walks. -/
theorem reschedule_touched (run : Run σ) (edit : Edit) :
    run.reschedule edit =
      { run with
        tasks := (edit.touched run.workspace.store).reverse.map
            (Task.through run.workspace.store) ++
          run.tasks.filter fun task => !task.startsAt (edit.touched run.workspace.store)
        stats := { run.stats with
          tasks := run.stats.tasks + (edit.touched run.workspace.store).length
          discarded := run.stats.discarded +
            (run.tasks.filter (·.startsAt (edit.touched run.workspace.store))).length } } := by
  rw [reschedule_eq, tainted_eq, foldl_resume (touched_pairwise _ _)]

/-! ## Walks that wait -/

/-- The run with more walks behind its own, and with other statistics. -/
def followedBy (run : Run σ) (older : List Task) (stats : Stats) : Run σ :=
  { run with tasks := run.tasks ++ older, stats }

/-- A step of a run with walks behind, compared to the step of the run without them: it leads to the
same, and some of the walks may have been dropped. -/
inductive Waits (older : List Task) : Progress σ → Progress σ → Prop
  | going {next : Run σ} {kept : List Task} {stats : Stats} : kept.Sublist older →
      stats.operations = next.stats.operations →
      Waits older (.going next) (.going (next.followedBy kept stats))
  | ended {last : Run σ} {ending : Ending} {stats : Stats} :
      Waits older (.ended last ending) (.ended (last.followedBy older stats) ending)

theorem perform_waits (run : Run σ) (older : List Task) {stats : Stats}
    (hstats : stats.operations = run.stats.operations) (place : Cursor) (rule : Text)
    (edit : Edit) :
    Waits older (perform pass root run place rule edit)
      (perform pass root (run.followedBy older stats) place rule edit) := by
  unfold perform
  simp only [followedBy, hstats]
  by_cases hlimit : pass.limit.any (· ≤ run.stats.operations) = true
  · rw [if_pos hlimit, if_pos hlimit]
    exact .ended
  · rw [if_neg hlimit, if_neg hlimit]
    rcases edit.apply (some run.workspace.pool) run.workspace.store with ⟨store, failure⟩
    cases failure with
    | some failure => cases failure <;> exact .ended
    | none =>
      dsimp only
      cases (if pass.validates then (store.tree (some root)).invalid? else none) with
      | some invalid => exact .ended
      | none =>
        dsimp only
        rw [reschedule_touched, reschedule_touched]
        simp only [List.filter_append, ← List.append_assoc]
        refine .going List.filter_sublist ?_
        show stats.operations + 1 = run.stats.operations + 1
        rw [hstats]

theorem dispatch_waits (run : Run σ) (older : List Task) {stats : Stats}
    (hstats : stats.operations = run.stats.operations) (place : Cursor) :
    Waits older (dispatch pass root run place)
      (dispatch pass root (run.followedBy older stats) place) := by
  unfold dispatch
  simp only [followedBy]
  cases place.refresh? run.workspace.store with
  | none => exact .going (List.Sublist.refl older) hstats
  | some fresh =>
    dsimp only
    cases offer fresh run.workspace run.memory pass.rules with
    | nothing w memory => exact .going (List.Sublist.refl older) hstats
    | fault fault w memory => exact .ended
    | edit rule edit w memory =>
      have hvisited : ({ stats with visits := stats.visits + 1 } : Stats).operations =
          ({ run.stats with visits := run.stats.visits + 1 } : Stats).operations := hstats
      exact perform_waits ⟨w, memory, run.tasks, _⟩ older hvisited fresh rule edit

/-- As long as a run has walks of its own, those behind wait. -/
theorem step_waits (run : Run σ) (older : List Task) {stats : Stats}
    (hstats : stats.operations = run.stats.operations) (hbusy : run.tasks ≠ []) :
    Waits older (step pass root run) (step pass root (run.followedBy older stats)) := by
  obtain ⟨task, rest, htasks⟩ := List.exists_cons_of_ne_nil hbusy
  unfold step
  simp only [followedBy, htasks, List.cons_append]
  cases task.walk.advance run.workspace.store with
  | none => exact .going (List.Sublist.refl older) hstats
  | some moved =>
    obtain ⟨motion, walk⟩ := moved
    cases motion with
    | entered place => exact .going (List.Sublist.refl older) hstats
    | passed => exact .going (List.Sublist.refl older) hstats
    | visited place =>
      exact dispatch_waits ⟨run.workspace, run.memory, { task with walk } :: rest, run.stats⟩ older
        hstats place

/-- Walks behind those of a run wait until the run without them has none left. -/
theorem steps_wait {older : List Task} {stats : Stats}
    (hstats : stats.operations = run.stats.operations) {n : Nat} {later : Run σ}
    (h : (run.followedBy older stats).steps pass root n = (later, none)) :
    (∃ m < n, ∃ done, run.steps pass root m = (done, none) ∧ done.tasks = []) ∨
      ∃ alone kept stats, run.steps pass root n = (alone, none) ∧ kept.Sublist older ∧
        later = alone.followedBy kept stats := by
  induction n generalizing run older stats with
  | zero =>
    obtain ⟨rfl, -⟩ := Prod.mk.inj h
    exact .inr ⟨run, older, stats, rfl, List.Sublist.refl older, rfl⟩
  | succ n ih =>
    by_cases hidle : run.tasks = []
    · exact .inl ⟨0, Nat.succ_pos n, run, rfl, hidle⟩
    · have hwaits : Waits older (step pass root run)
          (step pass root (run.followedBy older stats)) := step_waits run older hstats hidle
      unfold steps at h
      generalize hstep : step pass root run = progress at hwaits
      generalize step pass root (run.followedBy older stats) = progress' at hwaits h
      cases hwaits with
      | ended => cases h
      | @going next _ _ hkept hstats' =>
        have hsteps : ∀ m, run.steps pass root (m + 1) = next.steps pass root m := by
          intro m
          rw [steps, hstep]
        rcases ih hstats' h with ⟨m, hm, done, hdone, hidle⟩ | ⟨alone, kept, stats, halone, hrest⟩
        · exact .inl ⟨m + 1, Nat.succ_lt_succ hm, done, (hsteps m).trans hdone, hidle⟩
        · obtain ⟨hsub, heq⟩ := hrest
          exact .inr ⟨alone, kept, stats, (hsteps n).trans halone, hsub.trans hkept, heq⟩

end Run

end ScriptSimplifier
