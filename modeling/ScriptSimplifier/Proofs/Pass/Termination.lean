import Mathlib.Algebra.BigOperators.Ring.List
import Mathlib.Algebra.Ring.Nat
import ScriptSimplifier.Proofs.Pass.Sessions
import ScriptSimplifier.Proofs.SExpression.Reading

/-!
# Termination

Passes of the catalog end.  An edit lowers the cost of the tree: the number of its nodes and list
items, without canonical fragments and empty statements.  Between two edits the tree stays as it is,
and every step takes something from the load: the number of motions that the pending walks through
the present tree still need.
-/

namespace ScriptSimplifier

open Workspace

/-! ## Load -/

/-- How many motions a place of the agenda takes. -/
def Visit.load (s : Store) : Visit → Nat
  | .whole place => 2 * (s.tree place.element).size
  | .alone _ => 1

/-- How many motions an agenda takes. -/
def Visit.loadAll (s : Store) (visits : List Visit) : Nat := (visits.map (Visit.load s)).sum

@[simp] theorem Visit.loadAll_cons (s : Store) (visit : Visit) (visits : List Visit) :
    Visit.loadAll s (visit :: visits) = visit.load s + Visit.loadAll s visits := rfl

@[simp] theorem Visit.loadAll_append (s : Store) (visits more : List Visit) :
    Visit.loadAll s (visits ++ more) = Visit.loadAll s visits + Visit.loadAll s more := by
  simp [Visit.loadAll]

theorem sizeOfAll_eq (ts : List Tree) : sizeOfAll ts = (ts.map Tree.size).sum := by
  induction ts with
  | nil => rfl
  | cons t rest ih => rw [sizeOfAll, ih, List.map_cons, List.sum_cons]

/-- Entering a place takes a motion. -/
theorem Visit.opened_load {s : Store} (hshaped : s.Shaped) (hs : s.Acyclic) (place : Cursor) :
    Visit.loadAll s (Visit.opened s place) < (Visit.whole place).load s := by
  rw [Visit.opened, Visit.load]
  cases hr : place.element with
  | none => simp [Visit.loadAll, Tree.size]
  | some r =>
    have hsize : (s.tree (some r)).size = ((s.below r).map fun e => (s.tree e).size).sum + 1 := by
      cases hget : s.get r with
      | node label kids =>
        simp [hs.tree_node hget, Tree.size, sizeOfAll_eq, Store.below, hget, Cell.below,
          Function.comp_def]
      | list items =>
        simp [hs.tree_list hget, Tree.size, sizeOfAll_eq, Store.below, hget, Cell.below,
          Function.comp_def]
    have hchildren : Visit.loadAll s ((place.children s).map .whole) =
        2 * ((s.below r).map fun e => (s.tree e).size).sum := by
      rw [Visit.loadAll, hshaped.children_eq hr, ← hshaped.places_snd r, ← List.sum_map_mul_left]
      simp only [List.map_map]
      rfl
    have halone : Visit.loadAll s [.alone place] = 1 := rfl
    rw [if_neg (by simp), Visit.loadAll_append, hchildren, hsize, halone]
    omega

namespace Run

variable {σ : Type} {sims : List Simplification} {pass : Pass σ} {root : Ref} {strict : Strictness}

/-- How many motions the pending walks of a run take, and how many walks there are. -/
def load (run : Run σ) : Nat :=
  Visit.loadAll run.workspace.store run.agenda + run.tasks.length

theorem load_cons {run : Run σ} {task : Task} {rest : List Task} (h : run.tasks = task :: rest) :
    run.load = Visit.loadAll run.workspace.store task.agenda +
      Visit.loadAll run.workspace.store (rest.flatMap Task.agenda) + (rest.length + 1) := by
  simp [load, agenda, h]

/-! ## Progress -/

/-- A step lowers the cost of the tree, or leaves the tree and lowers the load. -/
theorem Moves.progress {run run' : Run σ} (h : Moves sims pass root run run')
    (hrun : run.Sound strict root) :
    run'.workspace.cost (some root) < run.workspace.cost (some root) ∨
      run'.workspace = run.workspace ∧ run'.load < run.load := by
  cases h with
  | closed htasks hagenda =>
    refine .inr ⟨rfl, ?_⟩
    rw [load_cons htasks, hagenda]
    simp [load, agenda, Visit.loadAll]
  | @entered task task' rest place visits htasks hagenda _ hagenda' =>
    refine .inr ⟨rfl, ?_⟩
    -- what is opened at a place weighs less than the visit of the place as a whole
    have hopened := Visit.opened_load hrun.intact.typed.shaped hrun.intact.acyclic place
    rw [load_cons htasks, load_cons rfl, hagenda, hagenda', Visit.loadAll_append,
      Visit.loadAll_cons]
    dsimp only
    omega
  | left htasks hagenda _ hagenda' _ _ =>
    refine .inr ⟨rfl, ?_⟩
    rw [load_cons htasks, load_cons rfl, hagenda, hagenda', Visit.loadAll_cons, Visit.load]
    dsimp only
    omega
  | @edited task task' rest place fresh visits edit w' store stats htasks hagenda _ _ hproposes
      happly _ =>
    refine .inl ?_
    obtain ⟨-, holder, x, kids, hchanges, rfl⟩ :=
      Proposes.changes hrun (mem_agenda htasks hagenda) hproposes happly
    rw [workspace_reschedule]
    exact hchanges.cost_lt hrun.intact

/-- A run that keeps the invariant ends, and more steps change nothing. -/
theorem Sound.ends (hrules : pass.rules = sims.map Simplification.rule) {run : Run σ}
    (hrun : run.Sound strict root) :
    ∃ n last ending, ∀ fuel, n ≤ fuel → run.steps pass root fuel = (last, some ending) := by
  -- first on the cost of the tree, and for the same tree on the load
  induction hcost : run.workspace.cost (some root) using Nat.strong_induction_on
    generalizing run with
  | _ cost ihcost =>
    induction hload : run.load using Nat.strong_induction_on generalizing run with
    | _ load ihload =>
      have hfollows := step_follows hrules root run
      cases hstep : step pass root run with
      | ended last ending =>
        refine ⟨1, last, ending, fun fuel hfuel => ?_⟩
        obtain ⟨fuel, rfl⟩ := Nat.exists_eq_add_of_le' hfuel
        rw [Run.steps, hstep]
      | going run' =>
        rw [hstep] at hfollows
        have hrun' := Moves.sound hfollows hrun
        obtain ⟨n, last, ending, hlast⟩ : ∃ n last ending, ∀ fuel, n ≤ fuel →
            run'.steps pass root fuel = (last, some ending) := by
          rcases Moves.progress hfollows hrun with hlt | ⟨hsame, hlt⟩
          · exact ihcost _ (hcost ▸ hlt) hrun' rfl
          · exact ihload _ (hload ▸ hlt) hrun' (by rw [hsame, hcost]) rfl
        refine ⟨n + 1, last, ending, fun fuel hfuel => ?_⟩
        obtain ⟨fuel, rfl⟩ := Nat.exists_eq_add_of_le' (Nat.le_trans (Nat.le_add_left 1 n) hfuel)
        rw [Run.steps, hstep]
        exact hlast fuel (by omega)

end Run

/-! ## Passes end -/

variable {σ : Type} {pass : Pass σ} {sims : List Simplification} {root : Ref} {strict : Strictness}
  {w : Workspace}

/-- A pass over an intact tree ends, and what it leaves does not depend on how many more steps it
is given. -/
theorem process_ends (hrules : pass.rules = sims.map Simplification.rule)
    (hoperators : strict.operators = true) (hw : w.Intact strict root) (memory : σ) :
    ∃ n processed, (∀ fuel, n ≤ fuel → pass.process fuel w memory (some root) = processed) ∧
      ((∃ stats, processed.report = .done stats) ∨
        (∃ stats error, processed.report = .failed stats error) ∨
        pass.raises = true ∧ ∃ message, processed.report = .fault (.raised message)) := by
  rcases process_cases hrules hoperators hw memory with
    ⟨_, invalid, _, _, hprocess⟩ | ⟨_, before, hprocess⟩
  · exact ⟨0, _, fun fuel _ => hprocess fuel, .inr (.inl ⟨_, _, rfl⟩)⟩
  · have hstart := Run.sound_start hw memory before
    obtain ⟨n, last, ending, hlast⟩ := hstart.ends hrules
    obtain ⟨after, hafter, _⟩ := hprocess n last _ (hlast n (Nat.le_refl n))
    refine ⟨n, ⟨last.workspace, last.memory,
      pass.reportOf { last.stats with after } (some ending)⟩, fun fuel hfuel => ?_, ?_⟩
    · obtain ⟨after', hafter', heq⟩ := hprocess fuel last _ (hlast fuel hfuel)
      obtain rfl := Option.some.inj (hafter.symm.trans hafter')
      exact heq
    · -- how the run ends decides what is reported
      have hends := Run.steps_induction hrules (fun _ _ hrun h => Run.Moves.sound h hrun) hstart n
      rw [hlast n (Nat.le_refl n)] at hends
      rcases hends with ⟨_, hnone⟩ | ⟨run, ending', hrun, hends, hending⟩
      · simp at hnone
      · obtain rfl := Option.some.inj hending
        dsimp only
        rcases hends.cases hrun with ⟨_, _, rfl⟩ | ⟨_, _, _, _, _, _, _, hhalts⟩
        · exact .inl ⟨_, rfl⟩
        · obtain ⟨error, rfl⟩ := hhalts.failed
          rw [Pass.reportOf, Pass.failure]
          split
          · rename_i hraises
            exact .inr (.inr ⟨hraises, _, rfl⟩)
          · exact .inr (.inl ⟨_, _, rfl⟩)

/-- Passes of the catalog end.  On every tree that was read, in every workspace of its session, a
pass of simplifications in any order and with any options ends after finitely many steps, with
nothing left to visit or with an error.  Whatever a simplification proposes at a place of the tree
lowers the cost, which leaves canonical fragments out: of the tree if it is applied, and of what
stands at the place if it is refused. -/
theorem catalog_terminates {text : Text} {t : Tree} (hread : Tree.read text = .ok t)
    (hw : Session t root w) :
    (∀ {σ : Type} (pass : Pass σ) (sims : List Simplification) (memory : σ),
      pass.rules = sims.map Simplification.rule →
      ∃ n processed, (∀ fuel, n ≤ fuel → pass.process fuel w memory (some root) = processed) ∧
        ((∃ stats, processed.report = .done stats) ∨
          (∃ stats error, processed.report = .failed stats error) ∨
          pass.raises = true ∧ ∃ message, processed.report = .fault (.raised message))) ∧
    ∀ (simplification : Simplification) (place : Cursor) (edit : Edit) (w' : Workspace),
      place.Within w.store root → simplification.propose place w = some (edit, w') →
      (∃ error n, edit.apply (some w'.pool) w'.store = (w'.store, some (.refused error)) ∧
        edit = .put place n ∧ w'.cost n < w.cost place.element) ∨
      ∃ store, edit.apply (some w'.pool) w'.store = (store, none) ∧
        (Workspace.mk store w'.pool).cost (some root) < w.cost (some root) := by
  have hintact := hw.intact (read_wellFormed hread)
  refine ⟨fun pass sims memory hrules => process_ends hrules rfl hintact memory, ?_⟩
  intro simplification place edit w' hplace hpropose
  obtain ⟨⟨r, hr, _⟩, _, _⟩ := simplification.grows hintact.toKept hpropose
  have hlive := hplace.live hintact.typed (by simp [hr])
  cases simplification.outcome hintact hlive hpropose with
  | empty _ hedit hcost happly => exact .inl ⟨_, _, happly, hedit, hcost⟩
  | noParent _ _ _ hedit hcost happly => exact .inl ⟨_, _, happly, hedit, hcost⟩
  | changed hchanges happly => exact .inr ⟨_, happly, hchanges.cost_lt hintact⟩

/-- A script that returns the negation of a literal. -/
def negationScript : Tree :=
  .node .script [.list [.node .returnStatement
    [.node (.unaryExpression "!") [.node (.booleanLiteral true) []]]]]

theorem catalog_terminates_negationScript :
    Tree.read "(Script [(ReturnStatement (UnaryExpression ! true))])" = .ok negationScript ∧
      Session negationScript (.cell 4) (.ofStore (Store.empty.plant negationScript).2) ∧
      ∃ n processed, ∀ fuel, n ≤ fuel →
        (({} : Options).pass "all" Simplification.all).process fuel
          (.ofStore (Store.empty.plant negationScript).2) () (some (.cell 4)) = processed := by
  have hread :
      Tree.read "(Script [(ReturnStatement (UnaryExpression ! true))])" = .ok negationScript := rfl
  have hw : Session negationScript (.cell 4) (.ofStore (Store.empty.plant negationScript).2) :=
    .planted rfl
  obtain ⟨n, processed, hprocessed, _⟩ :=
    (catalog_terminates hread hw).1 (({} : Options).pass "all" Simplification.all) _ () rfl
  exact ⟨hread, hw, n, processed, hprocessed⟩

end ScriptSimplifier
