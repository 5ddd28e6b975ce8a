import ScriptSimplifier.Proofs.Pass.Termination
import ScriptSimplifier.Proofs.Pass.Unvisited

/-!
# Fixed points

When a pass of the catalog ends in order, no rule proposes anything at any place of the tree it
leaves, so the same pass changes nothing when it runs again.
-/

namespace ScriptSimplifier

open Workspace

variable {σ : Type} {pass : Pass σ} {sims : List Simplification} {root : Ref} {strict : Strictness}
  {w : Workspace}

namespace Run

variable {run run' : Run σ}

/-! ## What a run leaves -/

/-- A tree that was found valid stays so in a pass that checks it. -/
def Checked (pass : Pass σ) (root : Ref) (run : Run σ) : Prop :=
  pass.validates = true → (run.workspace.store.tree (some root)).invalid? = none

theorem Moves.checked (h : Moves sims pass root run run') (hrun : Checked pass root run) :
    Checked pass root run' := by
  cases h with
  | closed _ _ => exact hrun
  | entered _ _ _ _ => exact hrun
  | left _ _ _ _ _ _ => exact hrun
  | edited _ _ _ _ _ _ hvalid _ =>
    intro hvalidates
    rw [workspace_reschedule]
    exact hvalid hvalidates

/-- When nothing is left to visit, no rule fires. -/
theorem Covered.quiet (hrun : run.Covered strict sims root) (htasks : run.tasks = [])
    {c : Cursor} (hc : c.Live run.workspace.store root) : ¬ Fires sims run.workspace c := by
  intro hfires
  have hcovers := hrun.covers c hc hfires
  rw [agenda, htasks, List.flatMap_nil, c.line_eq] at hcovers
  cases hcovers

/-! ## Runs without edits -/

/-- No rule fires anywhere. -/
def Quiet (sims : List Simplification) (root : Ref) (w : Workspace) : Prop :=
  ∀ c, c.Live w.store root → ¬ Fires sims w c

/-- A run that has changed nothing. -/
structure Idle (strict : Strictness) (root : Ref) (w : Workspace) (run : Run σ) : Prop where
  sound : run.Sound strict root
  workspace : run.workspace = w
  operations : run.stats.operations = 0

/-- Where no rule fires, nothing is proposed. -/
theorem Idle.no_proposal (hquiet : Quiet sims root w) (hrun : run.Idle strict root w)
    {visit : Visit} (hvisit : visit ∈ run.agenda) {fresh : Cursor} {edit : Edit} {w' : Workspace} :
    ¬ Proposes sims run visit.place fresh edit w' := by
  intro hproposes
  obtain ⟨hlive, _⟩ := Proposes.outcome hrun.sound hvisit hproposes
  obtain ⟨sim, hsim, hpropose⟩ := hproposes.propose
  rw [hrun.workspace] at hlive hpropose
  exact hquiet fresh hlive ⟨sim, hsim, by simp [hpropose]⟩

theorem Moves.idle (hquiet : Quiet sims root w) (h : Moves sims pass root run run')
    (hrun : run.Idle strict root w) : run'.Idle strict root w := by
  have hsound := h.sound hrun.sound
  cases h with
  | closed _ _ => exact ⟨hsound, hrun.workspace, hrun.operations⟩
  | entered _ _ _ _ => exact ⟨hsound, hrun.workspace, hrun.operations⟩
  | left _ _ _ _ hoperations _ =>
    exact ⟨hsound, hrun.workspace, hoperations.trans hrun.operations⟩
  | @edited task task' rest place fresh visits edit w' store stats htasks hagenda _ _ hproposes =>
    exact absurd hproposes (hrun.no_proposal hquiet (mem_agenda htasks hagenda))

end Run

/-! ## Passes -/

/-- A pass that ended in order leaves a tree where no rule fires, and which is valid if the pass
checks it. -/
theorem process_quiet (hrules : pass.rules = sims.map Simplification.rule)
    (hoperators : strict.operators = true) (hw : w.Intact strict root) {memory : σ} {fuel : Nat}
    {stats : Stats}
    (hdone : (pass.process fuel w memory (some root)).report = .done stats) :
    Run.Quiet sims root (pass.process fuel w memory (some root)).workspace ∧
      (pass.validates = true →
        ((pass.process fuel w memory (some root)).workspace.store.tree (some root)).invalid? =
          none) := by
  rcases process_cases hrules hoperators hw memory with
    ⟨_, _, _, _, hprocess⟩ | ⟨hvalid, before, hprocess⟩
  · rw [hprocess] at hdone
    simp at hdone
  · obtain ⟨after, _, heq⟩ := hprocess fuel _ _ rfl
    rw [heq] at hdone ⊢
    rcases Run.steps_induction hrules
      (P := fun run => run.Covered strict sims root ∧ run.Checked pass root)
      (fun _ _ hrun h => ⟨h.covered hrun.1, h.checked hrun.2⟩)
      ⟨Run.covered_start hw memory before, hvalid⟩ fuel with
      ⟨_, hnone⟩ | ⟨run, ending, ⟨hcovered, hchecked⟩, hends, hsome⟩
    · rw [hnone] at hdone
      simp [Pass.reportOf] at hdone
    · rw [hsome] at hdone
      rcases hends.cases hcovered.sound with ⟨htasks, hlast, _⟩ | ⟨_, _, _, _, _, _, _, hhalts⟩
      · dsimp only
        rw [hlast]
        exact ⟨fun c hc => hcovered.quiet htasks hc, hchecked⟩
      · obtain ⟨error, rfl⟩ := hhalts.failed
        simp only [Pass.reportOf, Pass.failure] at hdone
        split at hdone <;> simp at hdone

/-- A pass over a tree where no rule fires changes nothing and ends in order. -/
theorem process_idle (hrules : pass.rules = sims.map Simplification.rule)
    (hoperators : strict.operators = true) (hw : w.Intact strict root)
    (hquiet : Run.Quiet sims root w)
    (hvalid : pass.validates = true → (w.store.tree (some root)).invalid? = none) (memory : σ) :
    (∀ fuel, (pass.process fuel w memory (some root)).workspace = w) ∧
      ∃ n, ∀ fuel, n ≤ fuel → ∃ stats, stats.operations = 0 ∧
        (pass.process fuel w memory (some root)).report = .done stats := by
  rcases process_cases hrules hoperators hw memory with
    ⟨hvalidates, _, _, hinvalid, _⟩ | ⟨_, before, hprocess⟩
  · simp [hvalid hvalidates] at hinvalid
  · have hstart : (Run.start w memory root before).Idle strict root w :=
      ⟨Run.sound_start hw memory before, rfl, rfl⟩
    -- whatever the fuel, the run is where it started, and it has not failed
    have hidle : ∀ fuel last ending,
        (Run.start w memory root before).steps pass root fuel = (last, ending) →
        last.workspace = w ∧ last.stats.operations = 0 ∧
          (ending = none ∨ ending = some .finished) := by
      intro fuel last ending hlast
      have hsteps := Run.steps_induction hrules (fun _ _ hrun h => h.idle hquiet hrun) hstart fuel
      rw [hlast] at hsteps
      rcases hsteps with ⟨hrun, hnone⟩ | ⟨run, ending', hrun, hends, hsome⟩
      · exact ⟨hrun.workspace, hrun.operations, .inl hnone⟩
      · cases hends with
        | finished _ => exact ⟨hrun.workspace, hrun.operations, .inr hsome⟩
        | stopped hvisit hproposes _ => exact absurd hproposes (hrun.no_proposal hquiet hvisit)
    refine ⟨fun fuel => ?_, ?_⟩
    · obtain ⟨after, _, heq⟩ := hprocess fuel _ _ rfl
      rw [heq]
      exact (hidle fuel _ _ rfl).1
    · obtain ⟨n, last, ending, hends⟩ := hstart.sound.ends hrules
      refine ⟨n, fun fuel hfuel => ?_⟩
      obtain ⟨after, _, heq⟩ := hprocess fuel _ _ (hends fuel hfuel)
      obtain ⟨_, hoperations, hending⟩ := hidle fuel _ _ (hends fuel hfuel)
      obtain rfl : ending = .finished := by simpa using hending
      refine ⟨{ last.stats with after }, hoperations, ?_⟩
      rw [heq]
      rfl

/-- Fixed points.  Let a tree be read and a pass of simplifications, in any order and with any
options, run in any workspace of the tree's session.  If the pass ends in order, no simplification
of it proposes anything at any place of the tree that is left.  So when the pass runs again on what
it left, it changes nothing, applies no edit and ends in order. -/
theorem catalog_fixed_point {text : Text} {t : Tree} (hread : Tree.read text = .ok t)
    (hw : Session t root w) (hrules : pass.rules = sims.map Simplification.rule) {memory : σ}
    {fuel : Nat} {stats : Stats}
    (hdone : (pass.process fuel w memory (some root)).report = .done stats) :
    (∀ place, place.Within (pass.process fuel w memory (some root)).workspace.store root →
      ∀ simplification ∈ sims, simplification.propose place
        (pass.process fuel w memory (some root)).workspace = none) ∧
    ∀ memory', (∀ fuel', (pass.process fuel' (pass.process fuel w memory (some root)).workspace
        memory' (some root)).workspace = (pass.process fuel w memory (some root)).workspace) ∧
      ∃ n, ∀ fuel', n ≤ fuel' → ∃ stats', stats'.operations = 0 ∧
        (pass.process fuel' (pass.process fuel w memory (some root)).workspace memory'
          (some root)).report = .done stats' := by
  have hintact := hw.intact (read_wellFormed hread)
  have hleft := (process_history hrules hintact fuel memory).intact hintact
  obtain ⟨hquiet, hvalid⟩ := process_quiet hrules rfl hintact hdone
  refine ⟨fun place hplace simplification hmem => ?_, fun memory' =>
    process_idle hrules rfl hleft hquiet hvalid memory'⟩
  by_contra hproposes
  obtain ⟨p, hp⟩ := Option.ne_none_iff_exists'.mp hproposes
  obtain ⟨⟨r, hr, _⟩, _, _⟩ := simplification.grows hleft.toKept hp
  have hlive := hplace.live hleft.typed (by simp [hr])
  exact hquiet place hlive ⟨simplification, hmem, by simp [hp]⟩

/-- The number of edits of a report, if it ended in order. -/
def Report.edits? : Report → Option Nat
  | .done stats => some stats.operations
  | _ => none

theorem Report.done_of_edits? {report : Report} {n : Nat} (h : report.edits? = some n) :
    ∃ stats, report = .done stats ∧ stats.operations = n := by
  cases report with
  | done stats => exact ⟨stats, rfl, Option.some.inj h⟩
  | failed _ _ | fault _ | unfinished _ => cases h

/-- A script with an empty block and two expression statements. -/
def fusibleScript : Tree :=
  .node .script [.list [.node .blockStatement [.node .block [.list []]],
    .node .expressionStatement [.node (.identifierExpression "a") []],
    .node .expressionStatement [.node (.identifierExpression "b") []]]]

theorem catalog_fixed_point_fusibleScript :
    Tree.read
        "(Script [(BlockStatement (Block [])) (ExpressionStatement a) (ExpressionStatement b)])" =
        .ok fusibleScript ∧
      Session fusibleScript (.cell 8) (.ofStore (Store.empty.plant fusibleScript).2) ∧
      ∃ stats, ((({} : Options).pass "all" Simplification.all).process 60
          (.ofStore (Store.empty.plant fusibleScript).2) () (some (.cell 8))).report =
            .done stats ∧
        ∀ place, place.Within ((({} : Options).pass "all" Simplification.all).process 60
            (.ofStore (Store.empty.plant fusibleScript).2) () (some (.cell 8))).workspace.store
            (.cell 8) →
          ∀ simplification ∈ Simplification.all, simplification.propose place
            ((({} : Options).pass "all" Simplification.all).process 60
              (.ofStore (Store.empty.plant fusibleScript).2) () (some (.cell 8))).workspace =
              none := by
  have hread : Tree.read
      "(Script [(BlockStatement (Block [])) (ExpressionStatement a) (ExpressionStatement b)])" =
      .ok fusibleScript := rfl
  have hw : Session fusibleScript (.cell 8) (.ofStore (Store.empty.plant fusibleScript).2) :=
    .planted rfl
  have hdone : ∃ stats, ((({} : Options).pass "all" Simplification.all).process 60
      (.ofStore (Store.empty.plant fusibleScript).2) () (some (.cell 8))).report = .done stats := by
    have hedits : ((({} : Options).pass "all" Simplification.all).process 60
        (.ofStore (Store.empty.plant fusibleScript).2) () (some (.cell 8))).report.edits?.isSome =
          true := by decide +kernel
    obtain ⟨n, hn⟩ := Option.isSome_iff_exists.mp hedits
    obtain ⟨stats, hstats, -⟩ := Report.done_of_edits? hn
    exact ⟨stats, hstats⟩
  obtain ⟨stats, hstats⟩ := hdone
  exact ⟨hread, hw, stats, hstats, (catalog_fixed_point hread hw rfl hstats).1⟩

end ScriptSimplifier
