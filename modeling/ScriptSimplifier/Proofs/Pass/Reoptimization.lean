import Mathlib.Logic.Function.Iterate
import ScriptSimplifier.Proofs.Pass.FixedPoint
import ScriptSimplifier.Proofs.Pass.Validity

/-!
# Optimizing again

The second phase of the optimizer may leave work for the first: fused statements leave a block with
one statement, and an if statement that becomes a return has statements behind it.  So optimizing
once more may change the tree.  It changes nothing exactly if the first phase finds nothing to do
(`optimize_again`).  Whatever is changed lowers the cost of the tree, so optimizing again and again
comes to an end.
-/

namespace ScriptSimplifier

open Workspace

variable {σ : Type} {pass : Pass σ} {sims : List Simplification} {root : Ref} {strict : Strictness}
  {w : Workspace} {t : Tree}

/-! ## What edits cost -/

/-- Operations that were applied to a workspace with a tree: none, which left it as it was, or some,
which lowered the cost of the tree. -/
inductive Spends (root : Ref) (w : Workspace) : Nat → Workspace → Prop
  | nothing : Spends root w 0 w
  | something {n : Nat} {w' : Workspace} : w'.cost (some root) < w.cost (some root) →
      Spends root w (n + 1) w'

theorem Spends.trans {m n : Nat} {w' w'' : Workspace} (h : Spends root w m w')
    (h' : Spends root w' n w'') : Spends root w (m + n) w'' := by
  cases h with
  | nothing => exact (Nat.zero_add n).symm ▸ h'
  | something hcost =>
    cases h' with
    | nothing => exact .something hcost
    | something hcost' => exact .something (hcost'.trans hcost)

theorem Spends.eq_of_zero {w' : Workspace} (h : Spends root w 0 w') : w' = w := by
  cases h
  rfl

namespace Run

variable {run run' : Run σ}

/-- A step applies no edit, or one that lowers the cost. -/
theorem Moves.spends (h : Moves sims pass root run run') (hrun : run.Sound strict root)
    (hspent : Spends root w run.stats.operations run.workspace) :
    Spends root w run'.stats.operations run'.workspace := by
  cases h with
  | closed _ _ => exact hspent
  | entered _ _ _ _ => exact hspent
  | left _ _ _ _ hoperations _ => exact hoperations.symm ▸ hspent
  | @edited task task' rest place fresh visits edit w' store stats htasks hagenda _ _ hproposes
      happly _ hoperations =>
    obtain ⟨-, holder, x, kids, hchanges, rfl⟩ :=
      Proposes.changes hrun (mem_agenda htasks hagenda) hproposes happly
    rw [workspace_reschedule, operations_reschedule, hoperations]
    exact hspent.trans (.something (n := 0) (hchanges.cost_lt hrun.intact))

end Run

/-- A pass that ended in order counted the edits that it applied. -/
theorem process_spends (hrules : pass.rules = sims.map Simplification.rule)
    (hoperators : strict.operators = true) (hw : w.Intact strict root) {memory : σ} {fuel : Nat}
    {stats : Stats} (hdone : (pass.process fuel w memory (some root)).report = .done stats) :
    Spends root w stats.operations (pass.process fuel w memory (some root)).workspace := by
  rcases process_cases hrules hoperators hw memory with
    ⟨_, _, _, _, hprocess⟩ | ⟨_, before, hprocess⟩
  · rw [hprocess] at hdone
    cases hdone
  · obtain ⟨after, _, heq⟩ := hprocess fuel _ _ rfl
    rw [heq] at hdone ⊢
    rcases Run.steps_induction hrules
      (P := fun run => run.Sound strict root ∧ Spends root w run.stats.operations run.workspace)
      (fun _ _ hrun h => ⟨h.sound hrun.1, h.spends hrun.1 hrun.2⟩)
      ⟨Run.sound_start hw memory before, .nothing⟩ fuel with
      ⟨_, hnone⟩ | ⟨run, ending, ⟨hsound, hspent⟩, hends, hsome⟩
    · rw [hnone] at hdone
      cases hdone
    · rw [hsome] at hdone
      rcases hends.cases hsound with ⟨_, hlast, rfl⟩ | ⟨_, _, _, _, _, _, _, hhalts⟩
      · obtain rfl := Report.done.inj hdone
        rw [hlast]
        exact hspent
      · obtain ⟨error, rfl⟩ := hhalts.failed
        simp only [Pass.reportOf, Pass.failure] at hdone
        split at hdone <;> cases hdone

/-- A pass without limit over a valid script ends in order, and more steps change nothing. -/
theorem process_done (hrules : pass.rules = sims.map Simplification.rule)
    (hlimit : pass.limit = none) (hw : w.Intact .full root)
    (hscript : w.store.kind? root = some .script) (memory : σ) :
    ∃ n left stats memory', ∀ fuel, n ≤ fuel →
      pass.process fuel w memory (some root) = ⟨left, memory', .done stats⟩ := by
  obtain ⟨n, processed, hprocessed, hended⟩ := process_ends hrules rfl hw memory
  have hn := hprocessed n (Nat.le_refl n)
  have hkind : processed.workspace.store.kind? root = some .script := by
    rw [← hn, (process_history hrules hw n memory).kind hw, hscript]
  have hreport := process_reports hrules hw memory n
  rw [hn] at hreport
  obtain ⟨stats, hstats⟩ := hreport.done_of_script hkind hlimit hended
  exact ⟨n, processed.workspace, stats, processed.memory, fun fuel hfuel => by
    rw [hprocessed fuel hfuel, ← hstats]⟩

/-! ## The two phases -/

/-- The phase of the optimizer with a number. -/
def Options.phase (o : Options) (number : Nat) (simplifications : List Simplification) :
    Pass Unit :=
  o.pass (Text.ofString "phase-" ++ Text.ofNat number) simplifications

/-- The first phase of the optimizer. -/
def Options.phaseOne (o : Options) : Pass Unit := o.phase 1 Simplification.phaseOne

/-- The second phase of the optimizer. -/
def Options.phaseTwo (o : Options) : Pass Unit := o.phase 2 Simplification.phaseTwo

theorem Options.rules_phaseOne (o : Options) :
    o.phaseOne.rules = Simplification.phaseOne.map Simplification.rule := rfl

theorem Options.rules_phaseTwo (o : Options) :
    o.phaseTwo.rules = Simplification.phaseTwo.map Simplification.rule := rfl

theorem Options.phases_eq (o : Options) : o.phases = [o.phaseOne, o.phaseTwo] := rfl

variable {o : Options} {fuel : Nat} {stats : Stats}

/-- Both phases end in order, with a workspace in between and one in the end. -/
structure Optimizes (o : Options) (fuel : Nat) (root : Ref) (w : Workspace) (one two : Stats)
    (between left : Workspace) : Prop where
  first : o.phaseOne.process fuel w () (some root) = ⟨between, (), .done one⟩
  second : o.phaseTwo.process fuel between () (some root) = ⟨left, (), .done two⟩

/-- The optimizer ends in order if both phases do. -/
theorem Optimizes.eq {one two : Stats} {between left : Workspace}
    (h : Optimizes o fuel root w one two between left) :
    o.optimize fuel w (some root) = (left, .done ((({} : Stats).add one).add two)) := by
  simp only [Options.optimize, Options.phases_eq, runPasses, h.first, h.second, Report.after]

theorem Optimizes.operations {one two : Stats} {between left : Workspace}
    (h : Optimizes o fuel root w one two between left)
    (hdone : (o.optimize fuel w (some root)).2 = .done stats) :
    stats.operations = one.operations + two.operations := by
  rw [h.eq] at hdone
  obtain rfl := Report.done.inj hdone
  simp [Stats.add]

/-- If the optimizer ends in order, both phases did. -/
theorem exists_optimizes (hdone : (o.optimize fuel w (some root)).2 = .done stats) :
    ∃ one two between left, Optimizes o fuel root w one two between left := by
  simp only [Options.optimize, Options.phases_eq, runPasses] at hdone
  cases hone : (o.phaseOne.process fuel w () (some root)).report with
  | failed _ _ | fault _ | unfinished _ => simp [hone, Report.after] at hdone
  | done one =>
    simp only [hone, Report.after] at hdone
    cases htwo : (o.phaseTwo.process fuel (o.phaseOne.process fuel w () (some root)).workspace ()
        (some root)).report with
    | failed _ _ | fault _ | unfinished _ => simp [htwo] at hdone
    | done two => exact ⟨one, two, _, _, by rw [← hone], by rw [← htwo]⟩

section Phases

variable {one two : Stats} {between left : Workspace}

theorem Optimizes.history (h : Optimizes o fuel root w one two between left)
    (hw : w.Intact strict root) :
    History strict root w between ∧ History strict root w left := by
  have hone := process_history o.rules_phaseOne hw fuel ()
  rw [h.first] at hone
  have htwo := process_history o.rules_phaseTwo (hone.intact hw) fuel ()
  rw [h.second] at htwo
  exact ⟨hone, hone.trans htwo⟩

theorem Optimizes.spends (h : Optimizes o fuel root w one two between left)
    (hw : w.Intact .full root) :
    Spends root w one.operations between ∧ Spends root between two.operations left := by
  have hbetween := (h.history hw).1.intact hw
  have hone := process_spends o.rules_phaseOne rfl hw (by rw [h.first])
  have htwo := process_spends o.rules_phaseTwo rfl hbetween (by rw [h.second])
  rw [h.first] at hone
  rw [h.second] at htwo
  exact ⟨hone, htwo⟩

/-- Each phase leaves nothing for itself to do. -/
theorem Optimizes.quiet (h : Optimizes o fuel root w one two between left)
    (hw : w.Intact .full root) :
    Run.Quiet Simplification.phaseOne root between ∧
      Run.Quiet Simplification.phaseTwo root left := by
  have hbetween := (h.history hw).1.intact hw
  have hone := (process_quiet o.rules_phaseOne rfl hw (by rw [h.first])).1
  have htwo := (process_quiet o.rules_phaseTwo rfl hbetween (by rw [h.second])).1
  rw [h.first] at hone
  rw [h.second] at htwo
  exact ⟨hone, htwo⟩

end Phases

/-- Without limit the optimizer ends in order on a valid script, and more steps change nothing. -/
theorem optimize_ends (hlimit : o.limit = none) (hw : w.Intact .full root)
    (hscript : w.store.kind? root = some .script) :
    ∃ n one two between left, ∀ fuel, n ≤ fuel → Optimizes o fuel root w one two between left := by
  obtain ⟨m, between, one, _, hone⟩ :=
    process_done o.rules_phaseOne hlimit hw hscript ()
  have hhistory := process_history o.rules_phaseOne hw m ()
  rw [hone m (Nat.le_refl m)] at hhistory
  obtain ⟨n, left, two, _, htwo⟩ := process_done o.rules_phaseTwo hlimit
    (hhistory.intact hw) ((hhistory.kind hw).trans hscript) ()
  exact ⟨max m n, one, two, between, left, fun fuel hfuel =>
    ⟨hone fuel (by omega), htwo fuel (by omega)⟩⟩

/-- The optimizer changes nothing exactly if no phase finds anything to do. -/
theorem optimize_idle_iff {one two : Stats} {between left : Workspace} (hw : w.Intact .full root)
    (hends : ∃ n, ∀ fuel, n ≤ fuel → Optimizes o fuel root w one two between left) :
    one.operations + two.operations = 0 ↔
      Run.Quiet Simplification.phaseOne root w ∧ Run.Quiet Simplification.phaseTwo root w := by
  obtain ⟨n, hends⟩ := hends
  constructor
  · intro hzero
    obtain ⟨hone, htwo⟩ := (hends n (Nat.le_refl n)).spends hw
    obtain ⟨hquiet, hquiet'⟩ := (hends n (Nat.le_refl n)).quiet hw
    obtain ⟨hzero, hzero'⟩ := Nat.add_eq_zero_iff.mp hzero
    -- without an operation the workspace is the same, so both phases end where they started
    obtain rfl := (hzero ▸ hone).eq_of_zero
    obtain rfl := (hzero' ▸ htwo).eq_of_zero
    exact ⟨hquiet, hquiet'⟩
  · rintro ⟨hquiet, hquiet'⟩
    have hvalid := hw.valid
    obtain ⟨hsame, m, hone⟩ := process_idle o.rules_phaseOne rfl hw hquiet
      (fun _ => hvalid) ()
    obtain ⟨-, m', htwo⟩ := process_idle o.rules_phaseTwo rfl hw hquiet'
      (fun _ => hvalid) ()
    have hrun := hends (max n (max m m')) (by omega)
    obtain ⟨stats, hzero, hstats⟩ := hone (max n (max m m')) (by omega)
    obtain ⟨stats', hzero', hstats'⟩ := htwo (max n (max m m')) (by omega)
    have hbetween := hsame (max n (max m m'))
    rw [hrun.first] at hbetween hstats
    obtain rfl : between = w := hbetween
    rw [hrun.second] at hstats'
    obtain rfl := Report.done.inj hstats
    obtain rfl := Report.done.inj hstats'
    omega

/-! ## Again and again -/

/-- What the optimizer leaves of a tree. -/
def Options.optimized (o : Options) (fuel : Nat) (root : Ref) (w : Workspace) : Workspace :=
  (o.optimize fuel w (some root)).1

/-- After at most as many rounds as the tree costs, the optimizer finds nothing to do. -/
theorem optimize_rounds (hlimit : o.limit = none) (hw : w.Intact .full root)
    (hscript : w.store.kind? root = some .script) :
    ∃ rounds n, rounds ≤ w.cost (some root) ∧ ∀ fuel, n ≤ fuel → ∃ stats,
      (o.optimize fuel ((o.optimized fuel root)^[rounds] w) (some root)).2 = .done stats ∧
        stats.operations = 0 := by
  -- by induction on the cost, which every round with an operation lowers
  induction hcost : w.cost (some root) using Nat.strong_induction_on generalizing w with
  | _ cost ih =>
    subst hcost
    obtain ⟨n, one, two, between, left, hends⟩ := optimize_ends hlimit hw hscript
    have hrun := hends n (Nat.le_refl n)
    have hspends := (hrun.spends hw).1.trans (hrun.spends hw).2
    cases hoperations : one.operations + two.operations with
    | zero =>
      refine ⟨0, n, Nat.zero_le _, fun fuel hfuel => ?_⟩
      have heq := congrArg Prod.snd (hends fuel hfuel).eq
      exact ⟨_, heq, by simp [Stats.add, hoperations]⟩
    | succ m =>
      rw [hoperations] at hspends
      cases hspends with
      | something hlt =>
        have hhistory := (hrun.history hw).2
        obtain ⟨rounds, n', hrounds, hlast⟩ :=
          ih _ hlt (hhistory.intact hw) ((hhistory.kind hw).trans hscript) rfl
        refine ⟨rounds + 1, max n n', by omega, fun fuel hfuel => ?_⟩
        have hleft : o.optimized fuel root w = left :=
          congrArg Prod.fst (hends fuel (by omega)).eq
        rw [Function.iterate_succ_apply, hleft]
        exact hlast fuel (by omega)

theorem Cursor.Live.within (ht : w.store.Typed strict) {c : Cursor} (hc : c.Live w.store root) :
    c.Within w.store root := by
  induction c with
  | root e => exact hc ▸ .root
  | step parent key e ih =>
    obtain ⟨hparent, r, k, hr, rfl, hholds⟩ := hc
    refine .child (ih hparent) ?_
    rw [ht.shaped.children_eq hr]
    exact List.mem_map.mpr ⟨_, hholds, rfl⟩

/-- No rule fires anywhere if nothing is proposed at any place of the tree. -/
theorem quiet_iff (hw : w.Intact strict root) : Run.Quiet sims root w ↔
    ∀ place, place.Within w.store root → ∀ sim ∈ sims, sim.propose place w = none := by
  constructor
  · intro hquiet place hplace sim hsim
    by_contra hproposes
    obtain ⟨p, hp⟩ := Option.ne_none_iff_exists'.mp hproposes
    obtain ⟨⟨r, hr, _⟩, _, _⟩ := sim.grows hw.toKept hp
    have hlive := hplace.live hw.typed (by simp [hr])
    exact hquiet place hlive ⟨sim, hsim, by simp [hp]⟩
  · rintro hnone c hc ⟨sim, hsim, hsome⟩
    rw [hnone c (hc.within hw.typed) sim hsim] at hsome
    cases hsome

/-- Optimizing again.  Let a script be valid, with an operator in every unary operation, and let the
optimizer without limit end in order in a workspace of the script's session.  Then no simplification
of the second phase proposes anything in the tree it leaves.  The optimizer ends in order on that
tree again.  It applies no edit exactly if no simplification of the first phase proposes anything in
the tree, and then it leaves everything as it was.  After finitely many rounds there is no edit. -/
theorem optimize_again (hshaped : t.isShaped = true) (hoperators : t.hasOperators = true)
    (hvalid : t.invalid? = none) (hscript : t.kind? = some .script) (hw : Session t root w)
    (hlimit : o.limit = none) (hdone : (o.optimize fuel w (some root)).2 = .done stats) :
    (∀ place, place.Within (o.optimized fuel root w).store root →
      ∀ sim ∈ Simplification.phaseTwo, sim.propose place (o.optimized fuel root w) = none) ∧
    (∃ n, ∀ fuel', n ≤ fuel' → ∃ again,
      (o.optimize fuel' (o.optimized fuel root w) (some root)).2 = .done again ∧
      (again.operations = 0 ↔ ∀ place, place.Within (o.optimized fuel root w).store root →
        ∀ sim ∈ Simplification.phaseOne, sim.propose place (o.optimized fuel root w) = none) ∧
      (again.operations = 0 →
        o.optimized fuel' root (o.optimized fuel root w) = o.optimized fuel root w)) ∧
    ∃ rounds n, ∀ fuel', n ≤ fuel' → ∃ last,
      (o.optimize fuel' ((o.optimized fuel' root)^[rounds] (o.optimized fuel root w))
        (some root)).2 = .done last ∧ last.operations = 0 := by
  have hwellFormed : t.isWellFormed .full = true :=
    (isWellFormed_iff rfl).mpr ⟨hshaped, fun _ => hoperators, hvalid⟩
  have hintact := hw.intact hwellFormed
  obtain ⟨one, two, between, left, hrun⟩ := exists_optimizes hdone
  have hhistory := (hrun.history hintact).2
  have hleft : o.optimized fuel root w = left := congrArg Prod.fst hrun.eq
  have hintact' := hhistory.intact hintact
  have hkind : left.store.kind? root = some .script := by
    rw [hhistory.kind hintact, hw.kind hwellFormed, hscript]
  have hquiet := (hrun.quiet hintact).2
  rw [hleft]
  refine ⟨(quiet_iff hintact').mp hquiet, ?_, ?_⟩
  · obtain ⟨n, one', two', between', left', hends⟩ := optimize_ends hlimit hintact' hkind
    refine ⟨n, fun fuel' hfuel' => ?_⟩
    have hrun' := hends fuel' hfuel'
    have heq := congrArg Prod.snd hrun'.eq
    have hiff := optimize_idle_iff hintact' ⟨n, hends⟩
    rw [← hrun'.operations heq] at hiff
    refine ⟨_, heq, ?_, fun hzero => ?_⟩
    · rw [hiff, and_iff_left hquiet, quiet_iff hintact']
    · -- no operation in either phase, so nothing was spent and nothing has changed
      have hspends := (hrun'.spends hintact').1.trans (hrun'.spends hintact').2
      rw [← hrun'.operations heq, hzero] at hspends
      exact (congrArg Prod.fst hrun'.eq).trans hspends.eq_of_zero
  · obtain ⟨rounds, n, -, hlast⟩ := optimize_rounds hlimit hintact' hkind
    exact ⟨rounds, n, hlast⟩

/-- A loop over a block of two expression statements. -/
def loopScript : Tree :=
  .node .script [.list [.node .whileStatement [.node (.identifierExpression "t") [],
    .node .blockStatement [.node .block [.list
      [.node .expressionStatement [.node (.identifierExpression "a") []],
        .node .expressionStatement [.node (.identifierExpression "b") []]]]]]]]

/-- The loop is optimized to a block of one statement, which is flattened the second time. -/
theorem optimize_twice_loopScript :
    let w := Workspace.ofStore (Store.empty.plant loopScript).2
    let first := ({} : Options).optimized 100 (.cell 10) w
    let second := ({} : Options).optimized 100 (.cell 10) first
    (loopScript.isShaped = true ∧ loopScript.hasOperators = true ∧ loopScript.invalid? = none ∧
        loopScript.kind? = some .script ∧ Session loopScript (.cell 10) w) ∧
      (({} : Options).optimize 100 w (some (.cell 10))).2.edits? = some 1 ∧
      (({} : Options).optimize 100 first (some (.cell 10))).2.edits? = some 1 ∧
      second.store.tree (some (.cell 10)) ≠ first.store.tree (some (.cell 10)) ∧
      (second.store.tree (some (.cell 10))).fingerprint? ≠
        (first.store.tree (some (.cell 10))).fingerprint? := by
  intro w first second
  have hprint : (second.store.tree (some (.cell 10))).fingerprint? ≠
      (first.store.tree (some (.cell 10))).fingerprint? := by decide +kernel
  refine ⟨⟨by decide, by decide, by decide +kernel, rfl, .planted rfl⟩, ?_, ?_,
    fun htree => hprint (congrArg Tree.fingerprint? htree), hprint⟩
  · decide +kernel
  · decide +kernel

theorem optimize_again_loopScript :
    ∃ stats, (({} : Options).optimize 100 (.ofStore (Store.empty.plant loopScript).2)
        (some (.cell 10))).2 = .done stats ∧
      ∃ rounds n, ∀ fuel, n ≤ fuel → ∃ last,
        (({} : Options).optimize fuel ((({} : Options).optimized fuel (.cell 10))^[rounds]
          (({} : Options).optimized 100 (.cell 10) (.ofStore (Store.empty.plant loopScript).2)))
          (some (.cell 10))).2 = .done last ∧ last.operations = 0 := by
  have hedits : (({} : Options).optimize 100 (.ofStore (Store.empty.plant loopScript).2)
      (some (.cell 10))).2.edits? = some 1 := by decide +kernel
  obtain ⟨stats, hdone, -⟩ := Report.done_of_edits? hedits
  exact ⟨stats, hdone, (optimize_again (t := loopScript) (by decide) (by decide)
    (by decide +kernel) rfl (.planted rfl) rfl hdone).2.2⟩

end ScriptSimplifier
