import ScriptSimplifier.Proofs.Pass.Sessions
import ScriptSimplifier.Proofs.SExpression.RoundTrip

/-!
# Writing and reading again

Writing a writable tree and reading the text gives the tree back.  The trees that are read are
writable, and passes keep them so: the schema is kept by every run, and the labels of the nodes that
rules add are spelled as the writer needs them (`Store.Legible`).  Hence whatever the catalog leaves
of a tree that was read can be written and read again.
-/

namespace ScriptSimplifier

open Workspace Sequences Statements

/-- The labels of all nodes of a store can be written. -/
def Store.Legible (s : Store) : Prop :=
  ∀ r label, s.label? r = some label → label.isWritable = true

namespace Store.Legible

/-! ## Stores -/

variable {s : Store}

theorem push (h : s.Legible) {c : Cell}
    (hc : ∀ label kids, c = .node label kids → label.isWritable = true) : (s.push c).Legible := by
  intro r label hr
  by_cases hknown : (s.push c).Known r
  · rcases hknown.of_push with rfl | hold
    · rw [Store.label?, get_push_next] at hr
      cases c with
      | node label' kids => exact Option.some.inj hr ▸ hc label' kids rfl
      | list items => cases hr
    · rw [Store.label?, get_push c hold] at hr
      exact h r label hr
  · rw [Store.label?, get_unknown hknown] at hr
    exact Option.some.inj hr ▸ rfl

theorem add (h : s.Legible) {c : Cell}
    (hc : ∀ label kids, c = .node label kids → label.isWritable = true) : (s.add c).2.Legible := by
  rw [Store.add.eq_def]
  split
  · exact h
  · exact h
  · exact h.push hc

theorem plantAll {ts : List Tree} (hts : ∀ t ∈ ts, ∀ s : Store, s.Legible → (s.plant t).2.Legible)
    (h : s.Legible) : (s.plantAll ts).2.Legible := by
  induction ts generalizing s with
  | nil => exact h
  | cons t ts ih =>
    obtain ⟨ht, hts⟩ := List.forall_mem_cons.mp hts
    exact ih hts (ht s h)

/-- Planting a tree with writable labels. -/
theorem plant {t : Tree} (ht : (t.allNodes fun label _ => label.isWritable) = true)
    (h : s.Legible) : (s.plant t).2.Legible := by
  induction t using Tree.induction generalizing s with
  | missing => exact h
  | node label children ih =>
    obtain ⟨hlabel, hbelow⟩ := allNodes_node.mp ht
    rw [Store.plant]
    refine add (plantAll (fun t hmem s hs => ih t hmem (hbelow t hmem) hs) h) ?_
    intro label' kids heq
    exact (Cell.node.inj heq).1 ▸ hlabel
  | list items ih =>
    rw [Store.plant]
    refine add (plantAll (fun t hmem s hs => ih t hmem (allNodes_list.mp ht t hmem) hs) h) ?_
    intro label kids heq
    cases heq

theorem refill (h : s.Legible) (x : Ref) (kids : List (Option Ref)) :
    (s.refill x kids).Legible := by
  intro r label hr
  rw [label?_refill] at hr
  exact h r label hr

/-- The trees of a store have the labels of its nodes. -/
theorem allNodes (h : s.Legible) (hs : s.Acyclic) (e : Option Ref) :
    ((s.tree e).allNodes fun label _ => label.isWritable) = true := by
  cases e with
  | none => simp [Tree.allNodes]
  | some r =>
    induction r using hs.induction with
    | step r ih =>
      have hbelow : ∀ t ∈ (s.below r).map s.tree,
          (t.allNodes fun label _ => label.isWritable) = true := by
        intro t hmem
        obtain ⟨e, he, rfl⟩ := List.mem_map.mp hmem
        cases e with
        | none => simp [Tree.allNodes]
        | some c => exact ih c he
      cases hr : s.get r with
      | node label kids =>
        rw [Store.below, hr] at hbelow
        rw [hs.tree_node hr, allNodes_node]
        exact ⟨h r label (by rw [Store.label?, hr]), hbelow⟩
      | list items =>
        rw [Store.below, hr] at hbelow
        rw [hs.tree_list hr, allNodes_list]
        exact hbelow

end Store.Legible

theorem Store.legible_empty : Store.empty.Legible := by
  intro r label hr
  cases r <;> exact Option.some.inj hr ▸ rfl

/-! ## Fragments -/

namespace Workspace

/-- The labels of all nodes of a workspace can be written. -/
def Legible (w : Workspace) : Prop := w.store.Legible

namespace Legible

variable {w : Workspace} (h : w.Legible)
include h

theorem add (label : Label) (hlabel : label.isWritable = true) (kids : List (Option Ref)) :
    (w.add label kids).2.Legible :=
  Store.Legible.add h fun _ _ heq => (Cell.node.inj heq).1 ▸ hlabel

theorem enter (label : Label) (hlabel : label.isWritable = true) (v : Value)
    (kids : List (Option Ref)) : (w.enter v label kids).2.Legible :=
  h.add label hlabel kids

theorem literal (label : Label) (hlabel : label.isWritable = true) (v : Value) :
    (w.literal v label).2.Legible := by
  rw [Workspace.literal]
  split
  · exact h
  · exact h.enter label hlabel v []

theorem number (x : Double) : (w.number x).2.Legible := by
  rw [Workspace.number]
  split
  · exact (h.literal _ rfl _).enter _ (by decide) _ _
  · exact h.literal _ rfl _

/-- Every fragment is spelled by literals and operators. -/
theorem constant (v : Value) : (w.constant v).2.Legible := by
  rw [Workspace.constant.eq_def]
  split
  · exact h
  · cases v with
    | number x => exact h.number x
    | string t => exact h.literal (.stringLiteral t) rfl _
    | boolean b => exact h.literal (.booleanLiteral b) rfl _
    | undefined =>
      exact (h.literal (.numericLiteral (.zero false)) rfl _).enter (.unaryExpression "void")
        (by decide) _ _
    | null => exact h.literal .nullLiteral rfl _

end Legible

theorem legible_ofStore {s : Store} (hs : s.Legible) : (ofStore s).Legible := by
  have hempty : Legible ⟨s, .empty⟩ := hs
  have hminus : (Label.unaryExpression "-").isWritable = true := by decide
  have hquotient : (Label.binaryExpression "/").isWritable = true := by decide
  have hvoid : (Label.unaryExpression "void").isWritable = true := by decide
  dsimp only [ofStore]
  -- the ten values of the first pool, the last one first
  refine .enter ?_ .nullLiteral rfl _ _
  refine .enter ?_ (.booleanLiteral false) rfl _ _
  refine .enter ?_ (.booleanLiteral true) rfl _ _
  refine .enter ?_ _ hvoid _ _
  refine .enter (.enter (.enter ?_ _ hquotient _ _) _ hquotient _ _) _ hquotient _ _
  refine .enter ?_ _ hminus _ _
  refine .enter ?_ (.numericLiteral (.ofNat 1)) rfl _ _
  exact hempty.enter (.numericLiteral (.zero false)) rfl _ _

/-! ## Rules -/

namespace Legible

variable {w w' : Workspace}

theorem orUndefined (h : w.Legible) (e : Option Ref) : (orUndefined w e).2.Legible := by
  cases e with
  | some r => exact h
  | none => exact h.constant .undefined

theorem conditionalStatement (h : w.Legible) {label : Label} (hlabel : label.isWritable = true)
    (test x y : Option Ref) : (conditionalStatement w label test x y).2.Legible :=
  (h.add .conditionalExpression rfl _).add label hlabel _

theorem append {p : Option Ref × Workspace} (h : p.2.Legible) (ls : List (Option Ref)) :
    (ls.foldl append p).2.Legible := by
  induction ls generalizing p with
  | nil => exact h
  | cons l ls ih =>
    refine ih (Store.Legible.push h fun label kids heq => ?_)
    exact (Cell.node.inj heq).1 ▸ by decide

theorem join (h : w.Legible) (left right : Option Ref) : (join w left right).2.Legible := by
  rw [join_eq]
  exact append h _

theorem joinAll (h : w.Legible) (first : Option Ref) (others : List (Option Ref)) :
    (joinAll w first others).2.Legible := by
  induction others generalizing w first with
  | nil => exact h
  | cons e others ih => exact ih (h.join first e) _

end Legible

end Workspace

variable {strict : Strictness} {root : Ref} {w w' : Workspace}

theorem Sequences.Fuses.legible {s : Store} {position : Nat} {items items' : List (Option Ref)}
    {puts : List (Nat × Ref)} {gone : List Nat}
    (h : Fuses s position w items puts gone items' w') (hw : w.Legible) : w'.Legible := by
  induction h with
  | nil position w => exact hw
  | keep item _ _ ih => exact ih hw
  | fuse _ _ _ _ ih => exact ih ((hw.joinAll _ _).add .expressionStatement rfl _)

theorem Sequences.ListStep.legible {items items' : List (Option Ref)}
    (h : ListStep w items items' w') (hw : w.Legible) : w'.Legible := by
  cases h with
  | dropped _ _ => exact hw
  | completed _ hnext =>
    obtain ⟨_, _, _, ⟨rfl, _⟩ | rfl⟩ := completion?_eq hnext
    · exact (hw.join _ _).add .returnStatement rfl _
    · exact (hw.join _ _).add .throwStatement rfl _
  | fused _ hfuses => exact hfuses.legible hw

theorem NodeStep.legible {r : Ref} {n : Option Ref} (h : NodeStep w r n w') (hw : w.Legible) :
    w'.Legible := by
  cases h with
  | emptied _ _ _ => exact hw
  | unwrapped _ _ _ => exact hw
  | returned _ _ _ => exact ((hw.orUndefined _).orUndefined _).conditionalStatement rfl _ _ _
  | lowered hlabel _ _ _ =>
    rcases hlabel with rfl | rfl
    · exact hw.conditionalStatement rfl _ _ _
    · exact hw.conditionalStatement rfl _ _ _
  | selected _ _ => exact hw
  | unary _ _ _ _ => exact hw.constant _
  | binary _ _ _ _ _ => exact hw.constant _

/-- What the catalog adds to a workspace can be written. -/
theorem Simplification.legible (ht : w.store.Typed strict) (hw : w.Legible) {place : Cursor}
    {edit : Edit} {sim : Simplification} (h : sim.propose place w = some (edit, w')) :
    w'.Legible := by
  rcases propose_cases ht h with ⟨_, _, _, hstep, _⟩ | ⟨_, _, _, hrewrites⟩
  · exact hstep.legible hw
  · exact hrewrites.step.legible hw

/-! ## Passes -/

variable {σ : Type} {pass : Pass σ} {sims : List Simplification} {run run' : Run σ}

/-- A step of a run keeps the labels writable. -/
theorem Run.Moves.legible (h : Moves sims pass root run run') (hrun : run.Sound strict root)
    (hw : run.workspace.Legible) : run'.workspace.Legible := by
  cases h with
  | closed _ _ => exact hw
  | entered _ _ _ _ => exact hw
  | left _ _ _ _ _ _ => exact hw
  | @edited task task' rest place fresh visits edit w' store stats htasks hagenda _ _ hproposes
      happly _ _ =>
    obtain ⟨-, _, x, kids, -, rfl⟩ :=
      Proposes.changes hrun (mem_agenda htasks hagenda) hproposes happly
    obtain ⟨sim, _, hpropose⟩ := hproposes.propose
    rw [workspace_reschedule]
    exact (sim.legible hrun.intact.typed hw hpropose).refill x kids

/-- So does the last step. -/
theorem Run.Ends.legible {ending : Ending} (h : Ends sims pass root run run' ending)
    (hrun : run.Sound strict root) (hw : run.workspace.Legible) : run'.workspace.Legible := by
  rcases h.cases hrun with ⟨_, rfl, _⟩ | ⟨sim, _, place, edit, w', _, hpropose, hhalts⟩
  · exact hw
  · have hlegible := sim.legible hrun.intact.typed hw hpropose
    revert hhalts
    generalize run'.workspace = left
    intro hhalts
    cases hhalts with
    | limited _ => exact hlegible
    | empty _ => exact hlegible
    | noParent _ _ _ => exact hlegible
    | invalid _ _ _ => exact Store.Legible.refill hlegible _ _

/-- A pass keeps the labels writable, however it ends. -/
theorem legible_process (hrules : pass.rules = sims.map Simplification.rule)
    (hw : w.Intact strict root) (hlegible : w.Legible) (fuel : Nat) (memory : σ) :
    (pass.process fuel w memory (some root)).workspace.Legible := by
  rcases process_workspace fuel w memory root with hsame | ⟨before, hsteps⟩
  · rw [hsame]
    exact hlegible
  · have hkept : ∀ run run' : Run σ, run.Sound strict root ∧ run.workspace.Legible →
        Run.Moves sims pass root run run' → run'.Sound strict root ∧ run'.workspace.Legible := by
      rintro run run' ⟨hsound, hrun⟩ hmoves
      exact ⟨hmoves.sound hsound, hmoves.legible hsound hrun⟩
    have hsteps' := Run.steps_induction hrules hkept
      ⟨Run.sound_start hw memory before, hlegible⟩ fuel
    rw [hsteps]
    rcases hsteps' with ⟨⟨_, hlast⟩, _⟩ | ⟨_, _, ⟨hsound, hrun⟩, hends, _⟩
    · exact hlast
    · exact hends.legible hsound hrun

/-- The workspaces of a writable tree have writable labels. -/
theorem Session.legible {t : Tree} (ht : t.isWritable = true) (h : Session t root w) :
    w.Legible := by
  obtain ⟨hformed, hlabels⟩ := Tree.isWritable_iff.mp ht
  induction h with
  | planted hs =>
    have hplant := Store.legible_empty.plant hlabels
    rw [hs] at hplant
    exact legible_ofStore hplant
  | asked v _ ih => exact ih.constant v
  | passed fuel memory hrules hsession ih =>
    exact legible_process hrules (hsession.intact hformed) ih fuel memory

/-- A writable tree stays writable through its session. -/
theorem Session.isWritable {t : Tree} (ht : t.isWritable = true) (h : Session t root w) :
    (w.store.tree (some root)).isWritable = true := by
  have hintact := h.intact (t.isWellFormed_of_isWritable ht)
  exact Tree.isWritable_iff.mpr
    ⟨hintact.wellFormed, (h.legible ht).allNodes hintact.acyclic (some root)⟩

/-- Reading undoes writing, on one line and indented, for every writable tree.  Every tree that is
read is writable, and so is what passes of the catalog leave of it. -/
theorem read_undoes_write :
    (∀ t : Tree, t.isWritable = true →
      Tree.read t.toSExpression = .ok t ∧ Tree.read t.toIndented = .ok t) ∧
    ∀ (text : Text) (t : Tree), Tree.read text = .ok t → t.isWritable = true ∧
      ∀ (root : Ref) (w : Workspace), Session t root w →
        (w.store.tree (some root)).isWritable = true := by
  refine ⟨fun t ht => ⟨read_write ht none, read_write ht (some 0)⟩, fun text t hread => ?_⟩
  have ht := read_writable hread
  exact ⟨ht, fun root w hsession => hsession.isWritable ht⟩

/-- A script with numbers that have no numeral, words that stand for something else, names that need
quotes, a jump with a target and a missing test. -/
def oddScript : Tree :=
  .node .script [.list [
    .node .whileStatement [.missing, .node (.continueStatement "nil") []],
    .node .expressionStatement [.node (.binaryExpression "in")
      [.node (.numericLiteral .nan) [], .node (.identifierExpression "null") []]],
    .node .expressionStatement [.node (.unaryExpression "-")
      [.node (.numericLiteral (.zero true)) []]],
    .node .expressionStatement [.node (.staticMemberExpression "two words")
      [.node (.numericLiteral (.inf true)) []]]]]

theorem read_undoes_write_oddScript :
    oddScript.isWritable = true ∧ Tree.read oddScript.toSExpression = .ok oddScript ∧
      Tree.read oddScript.toIndented = .ok oddScript ∧
      ∀ (o : Options) (fuel : Nat),
        ((o.optimize fuel (.ofStore (Store.empty.plant oddScript).2)
          (some (.cell 13))).1.store.tree (some (.cell 13))).isWritable = true := by
  have hwritable : oddScript.isWritable = true := by decide
  obtain ⟨hline, hindented⟩ := read_undoes_write.1 oddScript hwritable
  obtain ⟨-, hsessions⟩ := read_undoes_write.2 _ oddScript hline
  refine ⟨hwritable, hline, hindented, fun o fuel => hsessions _ _ ?_⟩
  exact Session.optimize (.planted rfl) o fuel

end ScriptSimplifier
