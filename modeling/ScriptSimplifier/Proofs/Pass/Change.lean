import ScriptSimplifier.Optimizer
import ScriptSimplifier.Proofs.Pass.Scheduling
import ScriptSimplifier.Proofs.Pass.Truncation
import ScriptSimplifier.Proofs.Source.Snapshots

/-!
# Changed trees

The statistics of a pass hold the fingerprints of the tree before and after it, whatever its rules
are (`process_records`), and those of several passes span all of them (`runPasses_records`).  Plain
trees with the same snapshot are the same, so unless two snapshots collide the statistics say that
the tree was changed exactly if an edit was applied and the tree that is left is another one.
-/

namespace ScriptSimplifier

variable {σ : Type} {pass : Pass σ} {root : Ref} {w : Workspace} {memory : σ} {fuel : Nat}
  {stats : Stats} {t u v : Tree}

/-! ## Steps keep the first fingerprint -/

namespace Run

variable {run : Run σ}

theorem before_reschedule (run : Run σ) (edit : Edit) :
    (run.reschedule edit).stats.before = run.stats.before := by
  rw [reschedule_touched]

theorem Performs.before {last : Run σ} {rule : Text} {edit : Edit}
    (h : run.Performs rule edit last) : last.stats.before = run.stats.before := by
  cases h with
  | limited | failed | invalid => rfl
  | applied => exact before_reschedule _ edit

/-- A step keeps the fingerprint that the run started with. -/
theorem step_before (pass : Pass σ) (root : Ref) (run : Run σ) :
    (step pass root run).left.stats.before = run.stats.before := by
  have hcases := step_cases pass root run
  generalize step pass root run = progress at hcases
  cases hcases with
  | coasted _ hcoasts => cases hcoasts <;> rfl
  | skipped | declined | faulted => rfl
  | attempted hattempt =>
    obtain ⟨_, _, _, _, _, _, _, hrun⟩ := attempt?_eq_some hattempt
    rw [(perform_performs pass root _ _ _ _).before, hrun]

theorem steps_before (pass : Pass σ) (root : Ref) (fuel : Nat) (run : Run σ) :
    (run.steps pass root fuel).1.stats.before = run.stats.before :=
  steps_keep (P := fun run' => run'.stats.before = run.stats.before)
    (fun run' h => (step_before pass root run').trans h) rfl fuel

end Run

/-! ## Recorded fingerprints -/

/-- The statistics hold the fingerprints of a tree before and one after, unless the latter is
invalid.  A pass that finds an invalid tree takes no second fingerprint. -/
structure Stats.Records (stats : Stats) (t u : Tree) : Prop where
  before : t.fingerprint? = some stats.before
  after : u.fingerprint? = some stats.after ∨ u.invalid? ≠ none

/-- A report has the statistics that it is made of, unless an error ends the program. -/
theorem stats_reportOf {ending : Option Ending} {reported : Stats}
    (h : (pass.reportOf stats ending).stats? = some reported) :
    reported = stats := by
  unfold Pass.reportOf at h
  split at h
  · exact (Option.some.inj h).symm
  · exact (Option.some.inj h).symm
  · unfold Pass.failure at h
    dsimp only at h
    split at h
    · cases h
    · exact (Option.some.inj h).symm
  · cases h

theorem conclude_records {last : Run σ} {ending : Option Ending}
    (h : (pass.conclude root (last, ending)).report.stats? = some stats) :
    stats.before = last.stats.before ∧
      (last.workspace.store.tree (some root)).fingerprint? = some stats.after := by
  unfold Pass.conclude at h
  dsimp only at h
  split at h
  · cases h
  · cases h
  · rename_i after _ hafter
    rw [stats_reportOf h]
    exact ⟨rfl, hafter⟩

theorem process_records (h : (pass.process fuel w memory (some root)).report.stats? = some stats) :
    stats.Records (w.store.tree (some root))
      ((pass.process fuel w memory (some root)).workspace.store.tree (some root)) := by
  cases hbefore : (w.store.tree (some root)).fingerprint? with
  | none =>
    rw [Pass.process_unprinted hbefore] at h
    cases h
  | some before =>
    cases hfound : pass.found w root with
    | some invalid =>
      rw [Pass.process_invalid hbefore hfound] at h ⊢
      obtain rfl := Option.some.inj h
      refine ⟨hbefore, .inr fun hvalid => ?_⟩
      simp [Pass.found, hvalid] at hfound
    | none =>
      -- the run starts with the fingerprint and keeps it
      have hkept := Run.steps_before pass root fuel (Run.first w memory root)
      have hfirst : (Run.first w memory root).stats.before = before := by
        simp [Run.first, Run.start, Run.push, hbefore]
      rw [Pass.process_conclude hbefore hfound] at h ⊢
      obtain ⟨hsame, hafter⟩ := conclude_records h
      exact ⟨by rw [hbefore, hsame, hkept, hfirst], .inl hafter⟩

/-- Statistics of passes in a row hold the first fingerprint and the last. -/
theorem Stats.Records.add {earlier : Stats} (h : earlier.Records t u) (h' : stats.Records u v) :
    (earlier.add stats).Records t v := by
  obtain ⟨snapshot, -, hfingerprint⟩ := Option.map_eq_some_iff.mp h.before
  have hsome : earlier.before.isEmpty = false := by
    rw [← hfingerprint]
    rfl
  refine ⟨?_, h'.after⟩
  rw [h.before, Stats.add, hsome]
  rfl

theorem stats_after {report : Report} {earlier total : Stats}
    (h : (report.after earlier).stats? = some total) :
    ∃ stats, report.stats? = some stats ∧ total = earlier.add stats := by
  cases report with
  | fault => cases h
  | done stats | failed stats | unfinished stats => exact ⟨stats, rfl, (Option.some.inj h).symm⟩

/-- Passes in a row, the first of which starts with a tree. -/
theorem runPasses_records {passes : List (Pass Unit)} {total : Stats}
    (htotal : total = {} ∧ t = w.store.tree (some root) ∨ total.Records t (w.store.tree (some root)))
    (h : (runPasses fuel (some root) passes total w).2.stats? = some stats) :
    stats = {} ∨ stats.Records t
      ((runPasses fuel (some root) passes total w).1.store.tree (some root)) := by
  induction passes generalizing total w with
  | nil =>
    obtain rfl := Option.some.inj h
    exact htotal.imp_left And.left
  | cons pass passes ih =>
    -- what the pass adds to what was recorded before it
    have hadds : ∀ {total'}, ((pass.process fuel w () (some root)).report.after total).stats? =
        some total' → total'.Records t
          ((pass.process fuel w () (some root)).workspace.store.tree (some root)) := by
      intro total' htotal'
      obtain ⟨own, hown, rfl⟩ := stats_after htotal'
      have hrecords := process_records hown
      rcases htotal with ⟨rfl, rfl⟩ | hearlier
      · exact ⟨hrecords.before, hrecords.after⟩
      · exact hearlier.add hrecords
    unfold runPasses at h ⊢
    dsimp only at h ⊢
    cases hreport : (pass.process fuel w () (some root)).report.after total with
    | done total' =>
      rw [hreport] at h
      exact ih (.inr (hadds (by rw [hreport]; rfl))) h
    | failed total' error | unfinished total' =>
      rw [hreport] at h
      exact .inr (hadds (by rw [hreport]; exact h))
    | fault fault =>
      rw [hreport] at h
      cases h

/-! ## Changes -/

/-- Two trees have different snapshots with the same digest. -/
def Tree.Collides (t u : Tree) : Prop :=
  t.fingerprint? = u.fingerprint? ∧ t.snapshot? ≠ u.snapshot?

theorem fingerprint_inj (ht : t.isPlain = true) (hu : u.isPlain = true)
    (hcollides : ¬ t.Collides u) (h : t.fingerprint? = u.fingerprint?) : t = u := by
  by_contra hne
  exact hcollides ⟨h, fun hsnapshot => hne (snapshot_inj ht hu hsnapshot)⟩

theorem Stats.Records.changed_iff (h : stats.Records t u) (ht : t.isPlain = true)
    (hu : u.isPlain = true) (hcollides : ¬ t.Collides u) :
    stats.changed = true ↔ 0 < stats.operations ∧ t ≠ u := by
  have hvalid : u.invalid? = none := by
    simp only [Tree.isPlain, Bool.and_eq_true, Option.isNone_iff_eq_none] at hu
    exact hu.1.2
  have hafter := h.after.resolve_right (not_not_intro hvalid)
  have hsame : stats.before = stats.after ↔ t = u := by
    rw [← Option.some_inj, ← h.before, ← hafter]
    exact ⟨fingerprint_inj ht hu hcollides, congrArg Tree.fingerprint?⟩
  simp [Stats.changed, hsame]

/-- The snapshot of a tree determines it, for valid trees with plain names and known operators.  So,
unless two snapshots have the same digest, a run of a pass or of the optimizer reports that it
changed the tree exactly if it applied an edit and left a different tree. -/
theorem snapshot_determines_tree :
    (∀ t u : Tree, t.isPlain = true → u.isPlain = true →
      t.snapshot?.isSome ∧ (t.snapshot? = u.snapshot? → t = u)) ∧
    (∀ (σ : Type) (pass : Pass σ) (fuel : Nat) (w : Workspace) (memory : σ) (root : Ref)
      (stats : Stats),
      let before := w.store.tree (some root)
      let processed := pass.process fuel w memory (some root)
      let after := processed.workspace.store.tree (some root)
      before.isPlain = true → after.isPlain = true → ¬ before.Collides after →
      processed.report.stats? = some stats →
      (stats.changed = true ↔ 0 < stats.operations ∧ before ≠ after)) ∧
    ∀ (o : Options) (fuel : Nat) (w : Workspace) (root : Ref) (stats : Stats),
      let before := w.store.tree (some root)
      let optimized := o.optimize fuel w (some root)
      let after := optimized.1.store.tree (some root)
      before.isPlain = true → after.isPlain = true → ¬ before.Collides after →
      optimized.2.stats? = some stats →
      (stats.changed = true ↔ 0 < stats.operations ∧ before ≠ after) := by
  refine ⟨fun t u ht hu => ⟨snapshot?_isSome ht, snapshot_inj ht hu⟩, ?_, ?_⟩
  · intro σ pass fuel w memory root stats before processed after hbefore hafter hcollides hstats
    exact (process_records hstats).changed_iff hbefore hafter hcollides
  · intro o fuel w root stats before optimized after hbefore hafter hcollides hstats
    rcases runPasses_records (.inl ⟨rfl, rfl⟩) hstats with rfl | hrecords
    · simp [Stats.changed]
    · exact hrecords.changed_iff hbefore hafter hcollides

/-- A negative number has the source of a negation, but not its snapshot.  Dropping statements
changes a script, and the optimizer leaves it as it is. -/
theorem snapshot_determines_tree_twoItems :
    (let literal : Tree := .node (.numericLiteral (.ofInt (-1))) []
      let negation : Tree := .node (.unaryExpression "-") [.node (.numericLiteral (.ofInt 1)) []]
      literal.source? = negation.source? ∧ literal.snapshot? ≠ negation.snapshot?) ∧
    (∃ stats, (dropPass.process 30 twoItems () (some (.cell 1))).report.stats? = some stats ∧
      stats.changed = true) ∧
    ∃ stats, (({} : Options).optimize 60 twoItems (some (.cell 1))).2.stats? = some stats ∧
      stats.changed = false := by
  obtain ⟨hsnapshot, hpass, hoptimizer⟩ := snapshot_determines_tree
  have hplain : (twoItems.store.tree (some (.cell 1))).isPlain = true := by decide +kernel
  refine ⟨⟨by decide +kernel, fun heq => ?_⟩, ?_, ?_⟩
  · cases (hsnapshot _ _ (by decide +kernel) (by decide +kernel)).2 heq
  · have hcollides : ¬ (twoItems.store.tree (some (.cell 1))).Collides
        ((dropPass.process 30 twoItems () (some (.cell 1))).workspace.store.tree
          (some (.cell 1))) := by
      unfold Tree.Collides
      decide +kernel
    have hoperations : (dropPass.process 30 twoItems () (some (.cell 1))).report.stats?.any
        (0 < ·.operations) = true := by decide +kernel
    obtain ⟨stats, hstats, hsome⟩ := (Option.any_eq_true _ _).mp hoperations
    refine ⟨stats, hstats, (hpass Unit dropPass 30 twoItems () (.cell 1) stats hplain
      (by decide +kernel) hcollides hstats).mpr ⟨by simpa using hsome, fun heq => ?_⟩⟩
    exact absurd (congrArg Tree.kinds heq) (by decide +kernel)
  · have hcollides : ¬ (twoItems.store.tree (some (.cell 1))).Collides
        ((({} : Options).optimize 60 twoItems (some (.cell 1))).1.store.tree
          (some (.cell 1))) := by
      unfold Tree.Collides
      decide +kernel
    have hoperations : (({} : Options).optimize 60 twoItems (some (.cell 1))).2.stats?.any
        (·.operations = 0) = true := by decide +kernel
    obtain ⟨stats, hstats, hnone⟩ := (Option.any_eq_true _ _).mp hoperations
    have hchanged := hoptimizer {} 60 twoItems (.cell 1) stats hplain (by decide +kernel) hcollides
      hstats
    refine ⟨stats, hstats, Bool.eq_false_iff.mpr fun htrue => ?_⟩
    have hpositive := (hchanged.mp htrue).1
    simp at hnone
    omega

end ScriptSimplifier
