import Mathlib.Logic.Relation
import ScriptSimplifier.Pass.Run
import ScriptSimplifier.Proofs.Rule.Steps
import ScriptSimplifier.Rule.Scripted

/-!
# What rules add

A rule does not write to the tree.  All it does to a workspace is to add elements and to ask the
pool for fragments, any number of times: it *only adds* (`Rule.OnlyAdds`).  Then every element that
was there stays as it is, and the pool has more entries behind those it had (`Supplied.accrues`),
whatever the workspace is like.  The rules of the catalog and those that are given as scripts only
add.
-/

namespace ScriptSimplifier

open Relation

namespace Store

theorem extends_add (s : Store) (c : Cell) : s.Extends (s.add c).2 := by
  cases c with
  | list items => exact s.extends_push _
  | node label children =>
    by_cases hown : label.IsOwn
    · rw [add_node s children hown]
      exact s.extends_push _
    · -- the shared nodes are there already
      rcases Label.shared_of_not_own hown with rfl | rfl
      · exact .refl s
      · exact .refl s

/-- A new node is a node, and holds nothing but what it was made of. -/
theorem add_spec (s : Store) (label : Label) (kids : List (Option Ref)) :
    (s.add (.node label kids)).2.Known (s.add (.node label kids)).1 ∧
      (s.add (.node label kids)).2.isList (s.add (.node label kids)).1 = false ∧
      ∀ c, (s.add (.node label kids)).2.Holds (s.add (.node label kids)).1 c → some c ∈ kids := by
  by_cases hown : label.IsOwn
  · rw [s.add_node kids hown]
    refine ⟨s.next_known _, ?_, ?_⟩
    · simp [isList]
    · intro c hholds
      simpa [Holds, below, Cell.below] using hholds
  · rcases Label.shared_of_not_own hown with rfl | rfl
    all_goals
      refine ⟨trivial, rfl, ?_⟩
      intro c hholds
      obtain ⟨n, hn, -⟩ := hholds.cell
      cases hn

end Store

/-! ## Pools with more entries -/

namespace Pool

variable {p q : Pool} {r : Ref}

theorem valueOf?_of_prefix (h : p.entries <+: q.entries) {v : Value}
    (hr : p.valueOf? r = some v) : q.valueOf? r = some v := by
  obtain ⟨more, hmore⟩ := h
  obtain ⟨entry, hfind, rfl⟩ := Option.map_eq_some_iff.mp hr
  rw [valueOf?, ← hmore, List.find?_append, hfind]
  rfl

theorem isConstant_of_prefix (h : p.entries <+: q.entries)
    (hr : p.isConstant (some r) = true) : q.isConstant (some r) = true := by
  obtain ⟨v, hv⟩ := isConstant_iff.mp hr
  exact isConstant_iff.mpr ⟨v, h.subset hv⟩

end Pool

namespace Workspace

/-! ## Workspaces that accrue -/

/-- A workspace with more elements, and with more entries behind those of its pool. -/
structure Accrues (w w' : Workspace) : Prop where
  store : w.store.Extends w'.store
  pool : w.pool.entries <+: w'.pool.entries

variable {w w' w'' : Workspace}

theorem Accrues.refl (w : Workspace) : w.Accrues w := ⟨.refl _, List.prefix_rfl⟩

theorem Accrues.trans (h : w.Accrues w') (h' : w'.Accrues w'') : w.Accrues w'' :=
  ⟨h.store.trans h'.store, h.pool.trans h'.pool⟩

theorem accrues_enter (w : Workspace) (v : Value) (label : Label) (kids : List (Option Ref)) :
    w.Accrues (w.enter v label kids).2 :=
  ⟨w.store.extends_add _, List.prefix_append _ _⟩

theorem accrues_literal (w : Workspace) (v : Value) (label : Label) :
    w.Accrues (w.literal v label).2 := by
  unfold literal
  split
  · exact .refl w
  · exact w.accrues_enter v label []

theorem accrues_number (w : Workspace) (x : Double) : w.Accrues (w.number x).2 := by
  unfold number
  split
  · exact (w.accrues_literal _ _).trans (accrues_enter _ _ _ _)
  · exact w.accrues_literal _ _

/-- Asking for a fragment changes nothing that is there. -/
theorem accrues_constant (w : Workspace) (v : Value) : w.Accrues (w.constant v).2 := by
  rw [constant.eq_def]
  split
  · exact .refl w
  · split
    · exact w.accrues_number _
    · exact w.accrues_literal _ _
    · exact w.accrues_literal _ _
    · exact (w.accrues_literal _ _).trans (accrues_enter _ _ _ _)
    · exact w.accrues_literal _ _

/-! ## Additions -/

/-- What a rule may do to a workspace: add an element, or ask the pool for a fragment. -/
inductive Supplies (w : Workspace) : Workspace → Prop
  | added (c : Cell) : Supplies w { w with store := (w.store.add c).2 }
  | asked (v : Value) : Supplies w (w.constant v).2

/-- Any number of additions. -/
def Supplied : Workspace → Workspace → Prop := ReflTransGen Supplies

theorem Supplies.accrues (h : w.Supplies w') : w.Accrues w' := by
  cases h with
  | added c => exact ⟨w.store.extends_add c, List.prefix_rfl⟩
  | asked v => exact w.accrues_constant v

theorem Supplied.accrues (h : w.Supplied w') : w.Accrues w' := by
  induction h with
  | refl => exact .refl w
  | tail _ hlast ih => exact ih.trans hlast.accrues

theorem Supplied.refl (w : Workspace) : w.Supplied w := ReflTransGen.refl

theorem Supplied.trans (h : w.Supplied w') (h' : w'.Supplied w'') : w.Supplied w'' :=
  ReflTransGen.trans h h'

theorem supplied_add (w : Workspace) (label : Label) (kids : List (Option Ref)) :
    w.Supplied (w.add label kids).2 :=
  .single (.added _)

theorem supplied_constant (w : Workspace) (v : Value) : w.Supplied (w.constant v).2 :=
  .single (.asked v)

/-- Additions one after the other, with something that is carried along. -/
theorem supplied_foldl {α β : Type*} {f : α × Workspace → β → α × Workspace}
    (hf : ∀ a (w : Workspace) b, w.Supplied (f (a, w) b).2) (bs : List β) (a : α) (w : Workspace) :
    w.Supplied (bs.foldl f (a, w)).2 := by
  induction bs generalizing a w with
  | nil => exact .refl w
  | cons b rest ih =>
    rw [List.foldl_cons]
    exact (hf a w b).trans (ih _ _)

end Workspace

open Workspace

/-! ## Planted trees -/

theorem supplied_plantAll {ts : List Tree}
    (hts : ∀ t ∈ ts, ∀ w : Workspace, w.Supplied { w with store := (w.store.plant t).2 })
    (w : Workspace) : w.Supplied { w with store := (w.store.plantAll ts).2 } := by
  induction ts generalizing w with
  | nil => exact .refl w
  | cons t rest ih =>
    have hhead := hts t List.mem_cons_self w
    exact hhead.trans (ih (fun t' ht' => hts t' (List.mem_cons_of_mem _ ht')) _)

/-- Planting a tree only adds. -/
theorem supplied_plant (t : Tree) (w : Workspace) :
    w.Supplied { w with store := (w.store.plant t).2 } := by
  induction t using Tree.induction generalizing w with
  | missing => exact .refl w
  | list items ih =>
    rw [Store.plant]
    exact (supplied_plantAll ih w).tail (.added _)
  | node label children ih =>
    rw [Store.plant]
    exact (supplied_plantAll ih w).tail (.added _)

/-! ## Rules that only add -/

/-- A rule that writes to nothing: it adds elements and asks the pool for fragments. -/
def Rule.OnlyAdds {σ : Type} (rule : Rule σ) : Prop :=
  ∀ place w memory proposal, rule.propose place w memory = .ok proposal →
    w.Supplied proposal.workspace

/-- What the rules answer together. -/
def Run.Offer.proposal {σ : Type} : Run.Offer σ → Proposal σ
  | .nothing w memory => ⟨none, w, memory⟩
  | .edit _ change w memory => ⟨some change, w, memory⟩
  | .fault _ w memory => ⟨none, w, memory⟩

/-- Offering a place to rules that only add only adds. -/
theorem Run.supplied_offer {σ : Type} {rules : List (Rule σ)} (hrules : ∀ rule ∈ rules,
    rule.OnlyAdds) (place : Cursor) (w : Workspace) (memory : σ) :
    w.Supplied (offer place w memory rules).proposal.workspace := by
  induction rules generalizing w memory with
  | nil => exact .refl w
  | cons rule rest ih =>
    obtain ⟨hrule, hrest⟩ := List.forall_mem_cons.mp hrules
    unfold offer
    split
    · exact .refl w
    · rename_i hpropose
      exact hrule place w memory _ hpropose
    · rename_i hpropose
      exact (hrule place w memory _ hpropose).trans (ih hrest _ _)

/-! ## The catalog -/

variable {w w' : Workspace} {place : Cursor} {edit : Edit}

theorem supplied_orUndefined (w : Workspace) (e : Option Ref) :
    w.Supplied (Statements.orUndefined w e).2 := by
  cases e with
  | none => exact w.supplied_constant _
  | some r => exact .refl w

theorem supplied_conditionalStatement (w : Workspace) (label : Label)
    (test consequent alternate : Option Ref) :
    w.Supplied (Statements.conditionalStatement w label test consequent alternate).2 :=
  (w.supplied_add .conditionalExpression [test, consequent, alternate]).trans
    (supplied_add _ label [some _])

theorem NodeStep.supplied {r : Ref} {n : Option Ref} (h : NodeStep w r n w') : w.Supplied w' := by
  cases h with
  | emptied => exact .refl w
  | unwrapped => exact .refl w
  | returned =>
    exact ((supplied_orUndefined w _).trans (supplied_orUndefined _ _)).trans
      (supplied_conditionalStatement _ _ _ _ _)
  | lowered => exact supplied_conditionalStatement w _ _ _ _
  | selected => exact .refl w
  | unary => exact w.supplied_constant _
  | binary => exact w.supplied_constant _

namespace Sequences

theorem supplied_join (w : Workspace) (left right : Option Ref) :
    w.Supplied (join w left right).2 :=
  supplied_foldl (fun joined w leaf => w.supplied_add (.binaryExpression comma) [joined, leaf])
    _ _ _

theorem supplied_joinAll (w : Workspace) (first : Option Ref) (others : List (Option Ref)) :
    w.Supplied (joinAll w first others).2 :=
  supplied_foldl (fun _ w _ => supplied_join w _ _) _ _ _

theorem Run.supplied_fuse (run : Run) (place : Cursor) (w : Workspace) :
    w.Supplied (run.fuse place w).2 :=
  (supplied_joinAll w _ _).trans (supplied_add _ .expressionStatement [_])

end Sequences

/-- Whatever a simplification proposes, it only adds. -/
theorem Simplification.supplied (simplification : Simplification)
    (h : simplification.propose place w = some (edit, w')) : w.Supplied w' := by
  cases simplification with
  | deblock =>
    rw [propose, Statements.flattenBlock] at h
    obtain ⟨r, -, h⟩ := Option.bind_eq_some_iff.mp h
    split at h
    · split at h
      · obtain ⟨-, rfl⟩ := Prod.mk.inj (Option.some.inj h)
        exact w.supplied_add .emptyStatement []
      · obtain ⟨-, rfl⟩ := Prod.mk.inj (Option.some.inj h)
        exact .refl w
      · cases h
    · cases h
  | dropDead =>
    obtain ⟨items, -, h⟩ := Option.bind_eq_some_iff.mp h
    obtain ⟨jump, -, h⟩ := Option.bind_eq_some_iff.mp h
    split at h
    · cases h
    · obtain ⟨-, rfl⟩ := Prod.mk.inj (Option.some.inj h)
      exact .refl w
  | sequenceFusion =>
    obtain ⟨items, -, h⟩ := Option.bind_eq_some_iff.mp h
    dsimp only at h
    split at h
    · cases h
    · obtain ⟨-, rfl⟩ := Prod.mk.inj (Option.some.inj h)
      -- one new statement for each run
      exact supplied_foldl (fun _ w run => Sequences.Run.supplied_fuse run place w) _ _ _
  | completionFusion =>
    obtain ⟨items, -, h⟩ := Option.bind_eq_some_iff.mp h
    obtain ⟨pair, -, h⟩ := Option.bind_eq_some_iff.mp h
    obtain ⟨-, rfl⟩ := Prod.mk.inj (Option.some.inj h)
    exact (Sequences.supplied_join w _ _).trans (supplied_add _ _ _)
  | ifToConditional =>
    obtain ⟨r, n, -, hstep, -⟩ := lowerIf_step h
    exact hstep.supplied
  | foldConstant =>
    obtain ⟨r, n, -, hstep, -⟩ := foldOperation_step h
    exact hstep.supplied
  | foldConditional =>
    obtain ⟨r, n, -, hstep, -⟩ := foldConditional_step h
    exact hstep.supplied

/-- The rules of the catalog only add. -/
theorem Simplification.onlyAdds {σ : Type} (simplification : Simplification) :
    (simplification.rule : Rule σ).OnlyAdds := by
  intro place w memory proposal h
  unfold rule Rule.plain at h
  dsimp only at h
  split at h
  · rename_i hpropose
    obtain rfl := Except.ok.inj h
    exact simplification.supplied hpropose
  · obtain rfl := Except.ok.inj h
    exact .refl w

/-! ## Scripts -/

/-- Whatever an action puts in place, it only adds. -/
theorem Action.supplied {action : Action} (h : action.edit place w = .ok (edit, w')) :
    w.Supplied w' := by
  have hput : ∀ {place : Cursor} {material : Material},
      putMaterial place w material = .ok (edit, w') → w.Supplied w' := by
    intro place material h
    cases material with
    | unreadable error => cases h
    | tree t =>
      obtain ⟨-, rfl⟩ := Prod.mk.inj (Except.ok.inj h)
      exact supplied_plant t w
  cases action with
  | replace material => exact hput h
  | replaceChild field material => exact hput h
  | constant value =>
    cases value with
    | none => cases h
    | some v =>
      obtain ⟨-, rfl⟩ := Prod.mk.inj (Except.ok.inj h)
      exact w.supplied_constant v
  | swapItems positions =>
    match positions, h with
    | [], h => cases h
    | [_], h => cases h
    | i :: j :: _, h =>
      obtain ⟨-, rfl⟩ := Prod.mk.inj (Except.ok.inj h)
      exact .refl w
  | remove | removeChild | hoist | swap | removeAll | removeEach =>
    obtain ⟨-, rfl⟩ := Prod.mk.inj (Except.ok.inj h)
    exact .refl w

/-- The rules that are given as scripts only add. -/
theorem Script.onlyAdds (script : Script) (number : Nat) : (script.rule number).OnlyAdds := by
  intro place w journal proposal h
  unfold rule at h
  dsimp only at h
  split at h
  · obtain rfl := Except.ok.inj h
    exact .refl w
  · obtain ⟨holds, -, h⟩ := ok_of_bind h
    split at h
    · obtain rfl := Except.ok.inj h
      exact .refl w
    · obtain ⟨⟨edit, w'⟩, hedit, h⟩ := ok_of_bind h
      obtain rfl := Except.ok.inj h
      exact Action.supplied hedit

/-- Noting what a rule proposes adds nothing. -/
theorem Rule.OnlyAdds.noted {rule : Rule Journal} (h : rule.OnlyAdds) : rule.noted.OnlyAdds := by
  intro place w journal proposal hnoted
  obtain ⟨proposal', hpropose, hnoted⟩ := ok_of_bind hnoted
  have hadds := h place w journal proposal' hpropose
  split at hnoted
  · obtain rfl := Except.ok.inj hnoted
    exact hadds
  · obtain rfl := Except.ok.inj hnoted
    exact hadds

end ScriptSimplifier
