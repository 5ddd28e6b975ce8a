import ScriptSimplifier.Proofs.Pass.Attempts
import ScriptSimplifier.Proofs.Pass.Runs
import ScriptSimplifier.Proofs.Rule.Additions
import ScriptSimplifier.Proofs.Store.Writing

/-!
# Frozen fragments

A canonical fragment never changes.  The guard of an edit looks at the node that owns the place, and
the place may be stale or lie inside a fragment; what makes the guard enough is that the fragments
of a workspace are *anchored*: they are nodes that were given out, and they hold nothing but
fragments.  An edit writes to one element, the holder of its place, and the guard lets no fragment
be that (`not_frozen`).

Every workspace is anchored from the first pool on, whatever the tree in its store, and stays so in
all that can happen in it: rules that only add, and edits of any kind (`Turn.anchored`).
-/

namespace ScriptSimplifier

open Relation

namespace Workspace

variable {w w' w'' : Workspace}

/-! ## Anchored workspaces -/

/-- The fragments are nodes that were given out, and hold nothing but fragments. -/
structure Anchored (w : Workspace) : Prop where
  known : ∀ r, w.pool.isConstant (some r) = true → w.store.Known r
  node : ∀ r, w.pool.isConstant (some r) = true → w.store.isList r = false
  holds : ∀ p c, w.pool.isConstant (some p) = true → w.store.Holds p c →
    w.pool.isConstant (some c) = true

/-- What a fragment reaches is a fragment. -/
theorem Anchored.reaches (hw : w.Anchored) {r x : Ref} (hr : w.pool.isConstant (some r) = true)
    (h : w.store.Reaches r x) : w.pool.isConstant (some x) = true := by
  induction h with
  | refl => exact hr
  | tail _ hholds ih => exact hw.holds _ _ ih hholds

/-- The fragments of a workspace are fragments of another one, and the same elements there. -/
structure Freezes (w w' : Workspace) : Prop where
  pool : w.pool.entries <+: w'.pool.entries
  get : ∀ r, w.pool.isConstant (some r) = true → w'.store.get r = w.store.get r

theorem Freezes.refl (w : Workspace) : w.Freezes w := ⟨List.prefix_rfl, fun _ _ => rfl⟩

theorem Freezes.isConstant (h : w.Freezes w') {r : Ref}
    (hr : w.pool.isConstant (some r) = true) : w'.pool.isConstant (some r) = true :=
  Pool.isConstant_of_prefix h.pool hr

theorem Freezes.trans (h : w.Freezes w') (h' : w'.Freezes w'') : w.Freezes w'' := by
  refine ⟨h.pool.trans h'.pool, ?_⟩
  intro r hr
  rw [h'.get r (h.isConstant hr), h.get r hr]

/-- A fragment is read as the same value. -/
theorem Freezes.valueOf? (h : w.Freezes w') {r : Ref}
    (hr : w.pool.isConstant (some r) = true) : w'.valueOf? (some r) = w.valueOf? (some r) := by
  obtain ⟨v, hv⟩ : ∃ v, w.pool.valueOf? r = some v := by
    rw [← Option.isSome_iff_exists]
    simpa [Pool.isConstant] using hr
  have hv' := Pool.valueOf?_of_prefix h.pool hv
  simp only [Workspace.valueOf?, bind, Option.bind, hv, hv']

/-- The tree below a fragment is the same. -/
theorem Freezes.unfold (h : w.Freezes w') (hw : w.Anchored) {r : Ref}
    (hr : w.pool.isConstant (some r) = true) (depth : Nat) :
    w'.store.unfold depth (some r) = w.store.unfold depth (some r) := by
  induction depth generalizing r with
  | zero => rfl
  | succ depth ih =>
    have hbelow : ∀ e ∈ w.store.below r, w'.store.unfold depth e = w.store.unfold depth e := by
      intro e he
      cases e with
      | none => cases depth <;> rfl
      | some c => exact ih (hw.holds r c hr he)
    have hget := h.get r hr
    unfold Store.below at hbelow
    rw [Store.unfold, Store.unfold, hget]
    cases hcell : w.store.get r with
    | node label children =>
      rw [hcell] at hbelow
      exact congrArg (Tree.node label) (List.map_congr_left hbelow)
    | list items =>
      rw [hcell] at hbelow
      exact congrArg Tree.list (List.map_congr_left hbelow)

/-! ## Entering values -/

theorem Accrues.freezes (h : w.Accrues w') (hw : w.Anchored) : w.Freezes w' :=
  ⟨h.pool, fun r hr => h.store.get r (hw.known r hr)⟩

/-- A value is entered with a node over fragments. -/
theorem Anchored.enter (hw : w.Anchored) (v : Value) (label : Label) {kids : List (Option Ref)}
    (hkids : ∀ c, some c ∈ kids → w.pool.isConstant (some c) = true) :
    (w.enter v label kids).2.Anchored ∧
      (w.enter v label kids).2.pool.isConstant (some (w.enter v label kids).1) = true ∧
      w.Freezes (w.enter v label kids).2 := by
  have haccrues := w.accrues_enter v label kids
  have hfreezes := haccrues.freezes hw
  obtain ⟨hknown, hnode, hholds⟩ := w.store.add_spec label kids
  -- a fragment is one of before, or the new node
  have hcases : ∀ r, (w.enter v label kids).2.pool.isConstant (some r) = true →
      w.pool.isConstant (some r) = true ∨ r = (w.enter v label kids).1 := by
    intro r hr
    obtain ⟨u, hu⟩ := Pool.isConstant_iff.mp hr
    rcases List.mem_append.mp hu with hold | hnew
    · exact .inl (Pool.isConstant_iff.mpr ⟨u, hold⟩)
    · exact .inr (Prod.mk.inj (List.mem_singleton.mp hnew)).2
  refine ⟨⟨?_, ?_, ?_⟩, ?_, hfreezes⟩
  · intro r hr
    rcases hcases r hr with hold | rfl
    · exact haccrues.store.known (hw.known r hold)
    · exact hknown
  · intro r hr
    rcases hcases r hr with hold | rfl
    · unfold Store.isList
      rw [hfreezes.get r hold]
      exact hw.node r hold
    · exact hnode
  · intro p c hp hc
    rcases hcases p hp with hold | rfl
    · unfold Store.Holds Store.below at hc
      rw [hfreezes.get p hold] at hc
      exact hfreezes.isConstant (hw.holds p c hold hc)
    · exact hfreezes.isConstant (hkids c (hholds c hc))
  · exact Pool.isConstant_iff.mpr ⟨v, List.mem_append_right _ List.mem_cons_self⟩

theorem Anchored.literal (hw : w.Anchored) (v : Value) (label : Label) :
    (w.literal v label).2.Anchored ∧
      (w.literal v label).2.pool.isConstant (some (w.literal v label).1) = true := by
  unfold Workspace.literal
  split
  · rename_i r hfind
    exact ⟨hw, Pool.isConstant_iff.mpr ⟨v, Pool.find?_eq_some hfind⟩⟩
  · have hnone : ∀ c, some c ∈ ([] : List (Option Ref)) → w.pool.isConstant (some c) = true :=
      fun c hc => absurd hc List.not_mem_nil
    obtain ⟨hanchored, hconstant, -⟩ := hw.enter v label hnone
    exact ⟨hanchored, hconstant⟩

/-- Asking for a fragment keeps the fragments anchored. -/
theorem Anchored.constant (hw : w.Anchored) (v : Value) : (w.constant v).2.Anchored := by
  have hunary : ∀ {w : Workspace} {o : Ref}, w.Anchored → w.pool.isConstant (some o) = true →
      ∀ (v : Value) (label : Label), (w.enter v label [some o]).2.Anchored := by
    intro w o hw ho v label
    refine (hw.enter v label ?_).1
    intro c hc
    obtain rfl : c = o := by simpa using hc
    exact ho
  rw [Workspace.constant.eq_def]
  split
  · exact hw
  · split
    · unfold Workspace.number
      split
      · obtain ⟨hliteral, hoperand⟩ := hw.literal _ _
        exact hunary hliteral hoperand _ _
      · exact (hw.literal _ _).1
    · exact (hw.literal _ _).1
    · exact (hw.literal _ _).1
    · obtain ⟨hliteral, hoperand⟩ := hw.literal _ _
      exact hunary hliteral hoperand _ _
    · exact (hw.literal _ _).1

/-! ## The first pool -/

/-- Every store with its first pool is anchored. -/
theorem anchored_ofStore (s : Store) : (ofStore s).Anchored := by
  have hconstant : ∀ {w : Workspace}, w.pool = .empty → ∀ r, w.pool.isConstant (some r) ≠ true := by
    intro w hempty r hr
    obtain ⟨v, hv⟩ := Pool.isConstant_iff.mp hr
    rw [hempty] at hv
    exact absurd hv List.not_mem_nil
  have hstart : Anchored ⟨s, .empty⟩ :=
    ⟨fun r hr => absurd hr (hconstant rfl r), fun r hr => absurd hr (hconstant rfl r),
      fun p c hp => absurd hp (hconstant rfl p)⟩
  have hnone : ∀ {w : Workspace} c, some c ∈ ([] : List (Option Ref)) →
      w.pool.isConstant (some c) = true := fun c hc => absurd hc List.not_mem_nil
  have hone : ∀ {w : Workspace} {a : Ref}, w.pool.isConstant (some a) = true →
      ∀ c, some c ∈ [some a] → w.pool.isConstant (some c) = true := by
    intro w a ha c hc
    obtain rfl : c = a := by simpa using hc
    exact ha
  have htwo : ∀ {w : Workspace} {a b : Ref}, w.pool.isConstant (some a) = true →
      w.pool.isConstant (some b) = true →
      ∀ c, some c ∈ [some a, some b] → w.pool.isConstant (some c) = true := by
    intro w a b ha hb c hc
    rcases (by simpa using hc : c = a ∨ c = b) with rfl | rfl
    · exact ha
    · exact hb
  -- the fragments in their order, each built of constants that were entered before it
  obtain ⟨h0, zero, -⟩ := hstart.enter (.number (.zero false)) (.numericLiteral (.zero false)) hnone
  obtain ⟨h1, one, g1⟩ := h0.enter (.number (.ofNat 1)) (.numericLiteral (.ofNat 1)) hnone
  have zero1 := g1.isConstant zero
  obtain ⟨h2, minus, g2⟩ :=
    h1.enter (.number (Double.zero false).neg) (.unaryExpression "-") (hone zero1)
  have zero2 := g2.isConstant zero1
  have one2 := g2.isConstant one
  obtain ⟨h3, -, g3⟩ := h2.enter (.number .nan) (.binaryExpression "/") (htwo zero2 zero2)
  have zero3 := g3.isConstant zero2
  obtain ⟨h4, -, g4⟩ := h3.enter (.number (.inf false)) (.binaryExpression "/")
    (htwo (g3.isConstant one2) zero3)
  obtain ⟨h5, -, g5⟩ := h4.enter (.number (.inf true)) (.binaryExpression "/")
    (htwo (g4.isConstant (g3.isConstant one2)) (g4.isConstant (g3.isConstant minus)))
  obtain ⟨h6, -, -⟩ := h5.enter .undefined (.unaryExpression "void")
    (hone (g5.isConstant (g4.isConstant zero3)))
  obtain ⟨h7, -, -⟩ := h6.enter (.boolean true) (.booleanLiteral true) hnone
  obtain ⟨h8, -, -⟩ := h7.enter (.boolean false) (.booleanLiteral false) hnone
  exact (h8.enter .null .nullLiteral hnone).1

/-! ## The guard of an edit -/

/-- No edit that passes the guard writes to a fragment. -/
theorem Anchored.not_frozen (hw : w.Anchored) {target : Cursor} {holder : Ref}
    (h : Edit.editableParent (some w.pool) w.store target = .ok holder) :
    w.pool.isConstant (some holder) = false := by
  by_contra hconstant
  have hconstant' : w.pool.isConstant (some holder) = true := by simpa using hconstant
  -- a fragment is no list, so it is the owner of the place that it holds
  have hnode := hw.node holder hconstant'
  unfold Edit.editableParent at h
  split at h
  · cases h
  · rename_i parent hparent
    split at h
    · cases h
    · rename_i holder' hholder
      dsimp only at h
      split at h
      · cases h
      · rename_i hfree
        obtain rfl := Except.ok.inj h
        have howner : (target.owner? w.store).bind (·.node? w.store) = some holder' := by
          simp [Cursor.owner?, hparent, Edit.nodePlace?_node hholder hnode, Cursor.node?, hholder,
            hnode]
        rw [howner] at hfree
        exact hfree hconstant'

/-- An edit leaves the fragments as they are, whatever comes of it. -/
theorem Anchored.edited (hw : w.Anchored) (edit : Edit) :
    Anchored ⟨(edit.apply (some w.pool) w.store).1, w.pool⟩ ∧
      w.Freezes ⟨(edit.apply (some w.pool) w.store).1, w.pool⟩ := by
  have hstart : Anchored ⟨w.store, w.pool⟩ ∧ w.Freezes ⟨w.store, w.pool⟩ := ⟨hw, .refl w⟩
  refine Edit.apply_keeps (P := fun s => Anchored ⟨s, w.pool⟩ ∧ w.Freezes ⟨s, w.pool⟩)
    edit w.store ?_ hstart
  intro s t target holder fresh hs hholder _ hwrites
  obtain ⟨hanchored, hfreezes⟩ := hs
  have hfree := hanchored.not_frozen hholder
  -- an edit writes to a holder, and a fragment is never one
  have hget : ∀ r, w.pool.isConstant (some r) = true → t.get r = s.get r := by
    intro r hr
    refine hwrites.get (hanchored.known r hr) ?_
    rintro rfl
    rw [hr] at hfree
    cases hfree
  refine ⟨⟨?_, ?_, ?_⟩, ⟨List.prefix_rfl, ?_⟩⟩
  · intro r hr
    exact hwrites.known (hanchored.known r hr)
  · intro r hr
    show t.isList r = false
    rw [hwrites.isList (hanchored.known r hr)]
    exact hanchored.node r hr
  · intro p c hp hc
    unfold Store.Holds Store.below at hc
    rw [hget p hp] at hc
    exact hanchored.holds p c hp hc
  · intro r hr
    show t.get r = w.store.get r
    rw [hget r hr]
    exact hfreezes.get r hr

/-! ## What can happen in a workspace -/

/-- What can happen in a workspace: something is added, or an edit is applied. -/
inductive Turn (w : Workspace) : Workspace → Prop
  | supplied {w' : Workspace} : w.Supplies w' → Turn w w'
  | edited (edit : Edit) : Turn w ⟨(edit.apply (some w.pool) w.store).1, w.pool⟩

/-- What happens in a workspace leaves its fragments as they are. -/
theorem Turn.anchored (h : w.Turn w') (hw : w.Anchored) : w'.Anchored ∧ w.Freezes w' := by
  cases h with
  | edited edit => exact hw.edited edit
  | supplied hsupplies =>
    have haccrues := hsupplies.accrues
    refine ⟨?_, haccrues.freezes hw⟩
    cases hsupplies with
    | asked v => exact hw.constant v
    | added c =>
      refine ⟨?_, ?_, ?_⟩
      · intro r hr
        exact haccrues.store.known (hw.known r hr)
      · intro r hr
        unfold Store.isList
        rw [haccrues.store.get r (hw.known r hr)]
        exact hw.node r hr
      · intro p d hp hd
        unfold Store.Holds at hd
        rw [haccrues.store.below (hw.known p hp)] at hd
        exact hw.holds p d hp hd

theorem turns_anchored (h : ReflTransGen Turn w w') (hw : w.Anchored) :
    w'.Anchored ∧ w.Freezes w' := by
  induction h with
  | refl => exact ⟨hw, .refl w⟩
  | tail _ hturn ih =>
    obtain ⟨hanchored, hfreezes⟩ := hturn.anchored ih.1
    exact ⟨hanchored, ih.2.trans hfreezes⟩

theorem Supplied.turns (h : w.Supplied w') : ReflTransGen Turn w w' := by
  induction h with
  | refl => exact .refl
  | tail _ hlast ih => exact ih.tail (.supplied hlast)

end Workspace

open Workspace

/-! ## Runs -/

namespace Run

variable {σ : Type} {pass : Pass σ} {root : Ref} {run : Run σ} {w : Workspace}

/-- All that comes of an edit is that it is applied. -/
theorem perform_turns (place : Cursor) (rule : Text) (edit : Edit) :
    ReflTransGen Turn run.workspace (perform pass root run place rule edit).left.workspace := by
  have hedited : ∀ store failure,
      edit.apply (some run.workspace.pool) run.workspace.store = (store, failure) →
      ReflTransGen Turn run.workspace ⟨store, run.workspace.pool⟩ := by
    intro store failure happly
    have hturn : run.workspace.Turn _ := .edited edit
    rw [happly] at hturn
    exact .single hturn
  have hperforms := perform_performs pass root run place rule edit
  generalize (perform pass root run place rule edit).left = last at hperforms
  cases hperforms with
  | limited => exact .refl
  | failed happly => exact hedited _ _ happly
  | invalid happly => exact hedited _ _ happly
  | applied happly =>
    rw [workspace_reschedule]
    exact hedited _ _ happly

/-- All that a step does to the workspace is to let rules add and to apply an edit. -/
theorem step_turns (hrules : ∀ rule ∈ pass.rules, rule.OnlyAdds) (run : Run σ) :
    ReflTransGen Turn run.workspace (step pass root run).left.workspace := by
  have hcases := step_cases pass root run
  generalize step pass root run = progress at hcases
  have hoffer : ∀ place,
      ReflTransGen Turn run.workspace
        (offer place run.workspace run.memory pass.rules).proposal.workspace :=
    fun place => (supplied_offer hrules place run.workspace run.memory).turns
  cases hcases with
  | coasted _ hcoasts =>
    cases hcoasts with
    | finished => exact .refl
    | closed => exact .refl
    | moved => exact .refl
  | skipped hpull =>
    obtain ⟨task, rest, outer, -, -, rfl⟩ := pull?_eq_some hpull
    exact .refl
  | @declined place fresh left w memory _ _ hdeclined =>
    have hturns := hoffer fresh
    rw [hdeclined] at hturns
    exact hturns
  | @faulted place fresh left fault w memory _ _ hfaulted =>
    have hturns := hoffer fresh
    rw [hfaulted] at hturns
    exact hturns
  | @attempted attempt hattempt =>
    obtain ⟨place, left, w, memory, -, -, hedit, hrun⟩ := attempt?_eq_some hattempt
    -- the rules before the one that answers add, and then the edit is applied
    have hturns := hoffer attempt.place
    rw [hedit] at hturns
    have hadded : ReflTransGen Turn run.workspace attempt.run.workspace := by
      rw [hrun]
      exact hturns
    exact hadded.trans (perform_turns attempt.place attempt.rule attempt.edit)

theorem steps_turns (hrules : ∀ rule ∈ pass.rules, rule.OnlyAdds) (run : Run σ) (fuel : Nat) :
    ReflTransGen Turn run.workspace (run.steps pass root fuel).1.workspace :=
  steps_keep (P := fun last => ReflTransGen Turn run.workspace last.workspace)
    (fun last h => h.trans (step_turns hrules last)) .refl fuel

end Run

/-- All that a pass does to the workspace is to let rules add and to apply edits. -/
theorem process_turns {σ : Type} {pass : Pass σ} (hrules : ∀ rule ∈ pass.rules, rule.OnlyAdds)
    (fuel : Nat) (w : Workspace) (memory : σ) (root : Option Ref) :
    ReflTransGen Turn w (pass.process fuel w memory root).workspace := by
  unfold Pass.process
  split
  · exact .refl
  · rename_i root
    dsimp only
    split
    · exact .refl
    · exact .refl
    · exact Run.steps_turns hrules (Run.start w memory root _) fuel

/-- The uses of a workspace: what happens in it, and passes of rules that only add, with any
options, of any length and with any outcome, on the tree below any root. -/
inductive Workspace.Uses (w : Workspace) : Workspace → Prop
  | refl : Uses w w
  | turn {w' w'' : Workspace} : Uses w w' → w'.Turn w'' → Uses w w''
  | ran {σ : Type} {w' : Workspace} {pass : Pass σ} (fuel : Nat) (memory : σ)
      (root : Option Ref) : (∀ rule ∈ pass.rules, rule.OnlyAdds) → Uses w w' →
      Uses w (pass.process fuel w' memory root).workspace

variable {w w' : Workspace}

theorem Workspace.Uses.turns (h : w.Uses w') : ReflTransGen Turn w w' := by
  induction h with
  | refl => exact .refl
  | turn _ hturn ih => exact ih.tail hturn
  | ran fuel memory root hrules _ ih => exact ih.trans (process_turns hrules fuel _ memory root)

/-! ## What becomes of an edit of a fragment -/

/-- The place is a slot of a node: it is one step below the node, or its owner is the node. -/
def Cursor.SlotOf (s : Store) (c : Cursor) (r : Ref) : Prop :=
  c.parent?.bind Cursor.element = some r ∨ (c.owner? s).bind (·.node? s) = some r

/-- What the error of an edit of a fragment shows. -/
def Store.spelling (s : Store) (r : Ref) : Text := ((s.tree (some r)).source?).getD []

/-- The guard stops every edit of a slot of a fragment. -/
theorem Workspace.Anchored.frozen (hw : w.Anchored) {r : Ref}
    (hr : w.pool.isConstant (some r) = true) {target : Cursor}
    (h : target.SlotOf w.store r) :
    Edit.editableParent (some w.pool) w.store target = .error (.frozen (w.store.spelling r)) := by
  have howner : (target.owner? w.store).bind (·.node? w.store) = some r := by
    rcases h with hparent | howner
    · obtain ⟨parent, hparent, helement⟩ := Option.bind_eq_some_iff.mp hparent
      simp [Cursor.owner?, hparent, Edit.nodePlace?_node helement (hw.node r hr), Cursor.node?,
        helement, hw.node r hr]
    · exact howner
  obtain ⟨owner, hplace, hnode⟩ := Option.bind_eq_some_iff.mp howner
  obtain ⟨parent, hparent, hplace⟩ := Option.bind_eq_some_iff.mp hplace
  -- an empty place is its own owner, and no node
  obtain ⟨holder, hholder⟩ : ∃ holder, parent.element = some holder := by
    cases helement : parent.element with
    | some holder => exact ⟨holder, rfl⟩
    | none =>
      have hself : parent.nodePlace? w.store = some parent := by
        cases parent with
        | root e =>
          obtain rfl : e = none := helement
          rfl
        | step above key e =>
          obtain rfl : e = none := helement
          rfl
      obtain rfl := Option.some.inj (hself.symm.trans hplace)
      simp [Cursor.node?, helement] at hnode
  unfold Edit.editableParent
  simp only [hparent, hholder]
  rw [howner, Option.any_some, if_pos hr]
  rfl

/-- The refusal of an edit that puts a node, or nothing, in the place of a slot of a fragment. -/
def Store.replaceRefusal (s : Store) (r : Ref) (target : Cursor) : EditError :=
  if (target.node? s).isNone then .nothing (target.shown s) else .frozen (s.spelling r)

theorem Workspace.Anchored.remove_refused (hw : w.Anchored) {r : Ref}
    (hr : w.pool.isConstant (some r) = true) {target : Cursor} (h : target.SlotOf w.store r) :
    (Edit.remove target).apply (some w.pool) w.store =
      (w.store, some (.refused (.frozen (w.store.spelling r)))) := by
  have hremove : Edit.applyRemove (some w.pool) w.store target =
      .error (.refused (.frozen (w.store.spelling r))) := by
    unfold Edit.applyRemove
    rw [hw.frozen hr h]
    rfl
  rw [Edit.apply, hremove]

theorem Workspace.Anchored.replace_refused (hw : w.Anchored) {r : Ref}
    (hr : w.pool.isConstant (some r) = true) {target : Cursor} (h : target.SlotOf w.store r) :
    (Edit.replace target).apply (some w.pool) w.store =
      (w.store, some (.refused (w.store.replaceRefusal r target))) := by
  have hreplace : Edit.applyReplace (some w.pool) w.store target =
      .error (.refused (w.store.replaceRefusal r target)) := by
    unfold Edit.applyReplace Store.replaceRefusal
    rw [hw.frozen hr h]
    by_cases hnone : (target.node? w.store).isNone = true
    · simp only [hnone, if_true]
      rfl
    · simp only [hnone]
      rfl
  rw [Edit.apply, hreplace]

/-- A batch stops at the first edit that is refused. -/
theorem Edit.batch_refused {pool : Pool} {s t : Store} {before : List Edit} {edit : Edit}
    {error : EditError} (hbefore : (Edit.batch before).apply (some pool) s = (t, none))
    (hedit : edit.apply (some pool) t = (t, some (.refused error))) (after : List Edit) :
    (Edit.batch (before ++ edit :: after)).apply (some pool) s =
      (t, some (.refused (.inBatch before.length error))) := by
  rw [apply] at hbefore ⊢
  rw [applyAll_append hbefore, applyAll, hedit]
  simp only [failIn, Nat.zero_add]

/-- Canonical fragments are immutable.  Take any workspace with its first pool, let rules that only
add run over it in any passes, apply any edits in between, and go on in the same way: what was a
fragment on the way is a fragment at the end.  Everything below it is the same element, and is read
as the same value, and the tree below it is the same.  No edit changes it there either, wherever
its places come from.  To remove a slot of it, or to put a node there, is refused before anything
is written, also in a batch, behind edits that went through. -/
theorem fragments_immutable {s : Store} (hw : (ofStore s).Uses w) (hw' : w.Uses w') {r : Ref}
    (hr : w.pool.isConstant (some r) = true) :
    w'.pool.isConstant (some r) = true ∧
    (∀ x, w.store.Reaches r x →
      w'.store.get x = w.store.get x ∧ w'.valueOf? (some x) = w.valueOf? (some x)) ∧
    (∀ depth, w'.store.unfold depth (some r) = w.store.unfold depth (some r)) ∧
    (∀ edit : Edit, (edit.apply (some w'.pool) w'.store).1.get r = w'.store.get r) ∧
    (∀ target : Cursor, target.SlotOf w'.store r →
      (Edit.remove target).apply (some w'.pool) w'.store =
        (w'.store, some (.refused (.frozen (w'.store.spelling r)))) ∧
      (Edit.replace target).apply (some w'.pool) w'.store =
        (w'.store, some (.refused (w'.store.replaceRefusal r target)))) ∧
    ∀ (before after : List Edit) (t : Store) (target : Cursor),
      (Edit.batch before).apply (some w'.pool) w'.store = (t, none) → target.SlotOf t r →
      (Edit.batch (before ++ .remove target :: after)).apply (some w'.pool) w'.store =
        (t, some (.refused (.inBatch before.length (.frozen (t.spelling r))))) ∧
      (Edit.batch (before ++ .replace target :: after)).apply (some w'.pool) w'.store =
        (t, some (.refused (.inBatch before.length (t.replaceRefusal r target)))) := by
  obtain ⟨hanchored, -⟩ := turns_anchored hw.turns (anchored_ofStore s)
  obtain ⟨hanchored', hfreezes⟩ := turns_anchored hw'.turns hanchored
  have hr' := hfreezes.isConstant hr
  refine ⟨hr', ?_, hfreezes.unfold hanchored hr, ?_, ?_, ?_⟩
  · intro x hx
    have hconstant := hanchored.reaches hr hx
    exact ⟨hfreezes.get x hconstant, hfreezes.valueOf? hconstant⟩
  · intro edit
    exact (hanchored'.edited edit).2.get r hr'
  · intro target htarget
    exact ⟨hanchored'.remove_refused hr' htarget, hanchored'.replace_refused hr' htarget⟩
  · intro before after t target hbefore htarget
    -- what the batch has left when it comes to the place is anchored as well
    have hthere := (hanchored'.edited (.batch before)).1
    rw [hbefore] at hthere
    exact ⟨Edit.batch_refused hbefore (hthere.remove_refused hr' htarget) after,
      Edit.batch_refused hbefore (hthere.replace_refused hr' htarget) after⟩

/-- A rule that takes the left operand from every binary operation. -/
def dropLeft : Script :=
  { name := "drop-left", kind := some "BinaryExpression", action := .removeChild "left" }

/-- A pass of that rule. -/
def dropLeftPass : Pass Journal := { name := "drop", rules := [dropLeft.rule 0] }

/-- The quotient that stands for minus infinity keeps its operands, even as the root of a pass. -/
theorem fragments_immutable_quotient :
    (ofStore .empty).pool.isConstant (some (.cell 5)) = true ∧
    ∀ fuel, (dropLeftPass.process fuel (ofStore .empty) {} (some (.cell 5))).workspace.store.get
        (.cell 5) = .node (.binaryExpression "/") [some (.cell 1), some (.cell 2)] := by
  have hconstant : (ofStore .empty).pool.isConstant (some (.cell 5)) = true := by decide
  have hrules : ∀ rule ∈ dropLeftPass.rules, rule.OnlyAdds := by
    intro rule hrule
    obtain rfl := List.mem_singleton.mp hrule
    exact dropLeft.onlyAdds 0
  refine ⟨hconstant, fun fuel => ?_⟩
  have hrun : (ofStore .empty).Uses
      (dropLeftPass.process fuel (ofStore .empty) {} (some (.cell 5))).workspace :=
    .ran fuel {} _ hrules .refl
  have hsame := (fragments_immutable .refl hrun hconstant).2.1 (.cell 5) .refl
  exact hsame.1.trans rfl

end ScriptSimplifier
