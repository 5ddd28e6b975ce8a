import ScriptSimplifier.Proofs.Pass.Alteration
import ScriptSimplifier.Proofs.Rule.Settled

/-!
# Simplifications keep normal forms

A simplification that is tried where everything below is settled leaves the normal form as it is:
what it puts in place of a node has the normal form of that node (`NodeStep.normal`), and the items
it leaves in a list settle to what the old ones settle to (`normal_dropped`, `normal_completed`,
`Fuses.normal`).  This is not so for every order of edits, since joining two expressions looks for
commas in the second one as it stands.
-/

namespace ScriptSimplifier

open Workspace Sequences Statements

variable {strict : Strictness} {sims : List Simplification} {w w' : Workspace}

/-! ## Which simplification proposes what -/

/-- The kinds of nodes for which a simplification may propose something. -/
def Simplification.handles : Simplification → Kind → Bool
  | .deblock, .blockStatement => true
  | .ifToConditional, .ifStatement => true
  | .foldConstant, .unaryExpression => true
  | .foldConstant, .binaryExpression => true
  | .foldConditional, .unaryExpression => true
  | .foldConditional, .conditionalExpression => true
  | _, _ => false

/-- A list rule proposes nothing at a node. -/
theorem listField?_node {s : Store} {place : Cursor} {r : Ref} (hr : place.element = some r)
    (hnode : s.isList r = false) : listField? s place = none := by
  simp [listField?, Cursor.list?, hr, hnode]

theorem Simplification.handles_of_propose {simplification : Simplification} {place : Cursor}
    {r : Ref} {label : Label} {kids : List (Option Ref)} (hr : place.element = some r)
    (hget : w.store.get r = .node label kids)
    (h : (simplification.propose place w).isSome = true) :
    simplification.handles label.kind = true := by
  have hnode : w.store.isList r = false := by simp [Store.isList, hget]
  have hplace : place.node? w.store = some r := by simp [Cursor.node?, hr, hnode]
  have hlist := listField?_node hr hnode
  cases simplification with
  | dropDead => simp [propose, dropUnreachable, hlist] at h
  | sequenceFusion => simp [propose, fuseRuns, hlist] at h
  | completionFusion => simp [propose, fuseCompletion, hlist] at h
  | deblock =>
    simp only [propose, flattenBlock, hplace, hget, Option.bind_eq_bind, Option.bind_some] at h
    split at h
    · rename_i hcell
      obtain ⟨rfl, -⟩ := Cell.node.inj hcell
      rfl
    · cases h
  | ifToConditional =>
    simp only [propose, lowerIf, hplace, hget, Option.bind_eq_bind, Option.bind_some] at h
    split at h
    · rename_i hcell
      obtain ⟨rfl, -⟩ := Cell.node.inj hcell
      rfl
    · cases h
  | foldConstant =>
    simp only [propose, Folding.foldOperation, hplace, hget, Option.bind_eq_bind,
      Option.bind_some] at h
    split at h
    · cases h
    · split at h
      · rename_i hcell
        obtain ⟨rfl, -⟩ := Cell.node.inj hcell
        rfl
      · rename_i hcell
        obtain ⟨rfl, -⟩ := Cell.node.inj hcell
        rfl
      · cases h
  | foldConditional =>
    simp only [propose, Folding.foldConditional, hplace, hget, Option.bind_eq_bind,
      Option.bind_some] at h
    split at h
    · rename_i hcell
      obtain ⟨rfl, -⟩ := Cell.node.inj hcell
      rfl
    · rename_i hcell
      obtain ⟨rfl, -⟩ := Cell.node.inj hcell
      rfl
    · cases h

/-- Two returns without expression are left alone. -/
theorem lowerIf_returned {place : Cursor} {r c a : Ref} {test x y : Option Ref}
    (hr : place.element = some r)
    (hget : w.store.get r = .node .ifStatement [test, some c, some a])
    (hc : w.store.get c = .node .returnStatement [x])
    (ha : w.store.get a = .node .returnStatement [y]) :
    (lowerIf place w).isSome = true ↔ ¬ (x = none ∧ y = none) := by
  have hplace : place.node? w.store = some r := by
    simp [Cursor.node?, hr, Store.isList, hget]
  rw [lowerIf, hplace]
  simp only [Option.bind_eq_bind, Option.bind_some, hget, hc, ha, Option.isNone_iff_eq_none]
  split <;> simp_all

/-! ## Pieces -/

namespace Workspace

theorem Exact.orUndefined (hx : w.Exact) (hw : w.Kept strict) (e : Option Ref) :
    (orUndefined w e).2.Exact := by
  cases e with
  | some r => exact hx
  | none => exact (hx.constant hw .undefined).1

theorem normal_constant (hx : w.Exact) (hw : w.Kept strict) (v : Value) :
    (w.constant v).2.normal sims (some (w.constant v).1) = .constant v := by
  obtain ⟨-, hkept, hmem⟩ := hw.constant v
  exact normal_fragment hkept.acyclic ((hx.constant hw v).1.valueOf?_iff.mpr hmem)

theorem normal_orUndefined (hx : w.Exact) (hw : w.Kept strict) {e : Option Ref}
    (he : w.Settled sims e) :
    (orUndefined w e).2.normal sims (orUndefined w e).1 = (w.normal sims e).orUndefined := by
  cases e with
  | none => exact normal_constant hx hw .undefined
  | some r =>
    have hne : w.normal sims (some r) ≠ .missing := by
      rw [he]
      exact sketch_ne_missing hw.acyclic r
    show w.normal sims (some r) = _
    cases hnormal : w.normal sims (some r) with
    | missing => exact absurd hnormal hne
    | constant _ | node _ _ | list _ => rfl

theorem normal_conditional (hw : w.Kept strict) {label : Label} (hlabel : isCarrier label)
    {test x y : Option Ref} (hparts : ∀ e ∈ [test, x, y], w.IsOperandOf strict e) :
    (conditionalStatement w label test x y).2.normal sims
        (some (conditionalStatement w label test x y).1) =
      .node label [.choose sims (w.normal sims test) (w.normal sims x) (w.normal sims y)] := by
  obtain ⟨hbuilds, hop⟩ := builds_conditional hw hparts
  have hsame : [test, x, y].map
      ((w.push (.node .conditionalExpression [test, x, y])).normal sims) =
      [test, x, y].map (w.normal sims) :=
    List.map_congr_left fun e he => hbuilds.grows.normal hw hbuilds.kept (hparts e he).1
  have hget := w.store.get_push_next (.node .conditionalExpression [test, x, y])
  have hfree : (w.push (.node .conditionalExpression [test, x, y])).pool.valueOf? w.store.next =
      none := by
    refine hbuilds.kept.valueOf?_none hget fun v hs => ?_
    cases hs
  rw [conditionalStatement_eq, normal_add hbuilds.kept hlabel ⟨hbuilds.known, hop⟩,
    normal_node hbuilds.kept.acyclic hfree hget, hsame]
  rfl

/-- The block of a block statement. -/
theorem normal_block (hw : w.Coherent strict) {block list : Ref} {items : List (Option Ref)}
    (hblock : w.store.get block = .node .block [some list])
    (hlist : w.store.get list = .list items) :
    w.normal sims (some block) =
      .node .block [Sketch.list (Sketch.settle sims (items.map (w.normal sims)))] := by
  rw [normal_node hw.acyclic (hw.valueOf?_node hblock rfl) hblock, List.map_singleton,
    normal_list hw.acyclic (hw.valueOf?_list hlist) hlist]
  rfl

theorem Settled.eq_none (hs : w.store.Acyclic) {e : Option Ref} (he : w.Settled sims e)
    (h : w.normal sims e = .missing) : e = none := by
  cases e with
  | none => rfl
  | some r => exact absurd (he.symm.trans h) (sketch_ne_missing hs r)

/-- What a settled return carries is settled. -/
theorem Settled.carried (hw : w.Coherent strict) {r : Ref} {label : Label}
    (hlabel : isCarrier label) {e : Option Ref} (hr : w.store.get r = .node label [e])
    (h : w.Settled sims (some r)) : w.Settled sims e := by
  rw [Settled, sketch, normal_carrier hw hlabel hr, normal_carrier hw hlabel hr] at h
  exact (List.cons.inj (Sketch.node.inj h).2).1

end Workspace

/-! ## Steps at a node -/

theorem Sketch.lower?_returned {sims : List Simplification} {test x y : Sketch}
    (h : ¬ (x = .missing ∧ y = .missing)) :
    lower? sims [test, .node .returnStatement [x], .node .returnStatement [y]] =
      some (.node .returnStatement [choose sims test x.orUndefined y.orUndefined]) := by
  rw [lower?]
  rintro rfl rfl
  exact h ⟨rfl, rfl⟩

/-- Two returned values, with `undefined` for a missing one, and the test between them. -/
theorem returned_parts (hw : w.Kept strict) {r c a : Ref} {test x y : Option Ref}
    (hr : w.store.get r = .node .ifStatement [test, some c, some a])
    (hc : w.store.get c = .node .returnStatement [x])
    (ha : w.store.get a = .node .returnStatement [y]) :
    (orUndefined (orUndefined w x).2 y).2.Kept strict ∧
      ∀ e ∈ [test, (orUndefined w x).1, (orUndefined (orUndefined w x).2 y).1],
        (orUndefined (orUndefined w x).2 y).2.IsOperandOf strict e := by
  obtain ⟨hbx, hby, hopx, hopy⟩ := builds_returned hw hc ha
  exact ⟨hby.kept, conditional_parts hw (hbx.grows.trans hby.grows) hr
    ⟨hby.grows.store.knownAt hbx.known, hopx⟩ ⟨hby.known, hopy⟩⟩

theorem normal_returned (hw : w.Kept strict) (hx : w.Exact) {r c a : Ref} {test x y : Option Ref}
    (hr : w.store.get r = .node .ifStatement [test, some c, some a])
    (hc : w.store.get c = .node .returnStatement [x])
    (ha : w.store.get a = .node .returnStatement [y]) (hxs : w.Settled sims x)
    (hys : w.Settled sims y) :
    (conditionalStatement (orUndefined (orUndefined w x).2 y).2 .returnStatement test
        (orUndefined w x).1 (orUndefined (orUndefined w x).2 y).1).2.normal sims
      (some (conditionalStatement (orUndefined (orUndefined w x).2 y).2 .returnStatement test
        (orUndefined w x).1 (orUndefined (orUndefined w x).2 y).1).1) =
      .node .returnStatement [.choose sims (w.normal sims test) (w.normal sims x).orUndefined
        (w.normal sims y).orUndefined] := by
  obtain ⟨hbx, hby, -, -⟩ := builds_returned hw hc ha
  obtain ⟨-, hparts⟩ := returned_parts hw hr hc ha
  have hyknown := knownAt_of_node hw.toCoherent ha y (by simp)
  have htknown := knownAt_of_node hw.toCoherent hr test (by simp)
  rw [normal_conditional hby.kept (.inl rfl) hparts,
    (hbx.grows.trans hby.grows).normal hw hby.kept htknown,
    hby.grows.normal hbx.kept hby.kept hbx.known, normal_orUndefined hx hw hxs,
    normal_orUndefined (hx.orUndefined hw x) hbx.kept (hbx.grows.settled hw hbx.kept hyknown hys),
    hbx.grows.normal hw hbx.kept hyknown]

/-- What takes the place of a node has the normal form of the node, if what is below is settled. -/
theorem NodeStep.normal (hw : w.Kept strict) (hx : w.Exact) {r : Ref} {n : Option Ref}
    (h : NodeStep w r n w') {label : Label} {kids : List (Option Ref)}
    (hget : w.store.get r = .node label kids)
    (hsim : ∃ sim ∈ sims, sim.handles label.kind = true)
    (hreturned : ∀ test c a x y, w.store.get r = .node .ifStatement [test, some c, some a] →
      w.store.get c = .node .returnStatement [x] → w.store.get a = .node .returnStatement [y] →
      ¬ (x = none ∧ y = none))
    (hkids : ∀ e ∈ kids, w.Settled sims e) : w'.normal sims n = w.normal sims (some r) := by
  obtain ⟨sim, hmem, hhandles⟩ := hsim
  have hac := hw.acyclic
  -- in each case the rule that handles this kind is among those of the normal form
  cases h with
  | emptied hr hblock hlist =>
    obtain ⟨rfl, rfl⟩ := Cell.node.inj (hget.symm.trans hr)
    have hdeblock : .deblock ∈ sims := by cases sim <;> first | exact hmem | cases hhandles
    rw [normal_node hac (hw.valueOf?_node hr rfl) hr, List.map_singleton,
      normal_block hw.toCoherent hblock hlist,
      normal_node hac (hw.valueOf?_node w.store.get_emptyStatement rfl) w.store.get_emptyStatement]
    simp [Sketch.reduce, Sketch.reduce?, Sketch.flatten?, Sketch.settle, hdeblock]
  | unwrapped hr hblock hlist =>
    obtain ⟨rfl, rfl⟩ := Cell.node.inj (hget.symm.trans hr)
    have hdeblock : .deblock ∈ sims := by cases sim <;> first | exact hmem | cases hhandles
    rw [normal_node hac (hw.valueOf?_node hr rfl) hr, List.map_singleton,
      normal_block hw.toCoherent hblock hlist]
    simp [Sketch.reduce, Sketch.reduce?, Sketch.flatten?, Sketch.settle, Sketch.push, hdeblock]
  | @returned c a test x y hr hc ha =>
    obtain ⟨rfl, rfl⟩ := Cell.node.inj (hget.symm.trans hr)
    have hlower : .ifToConditional ∈ sims := by cases sim <;> first | exact hmem | cases hhandles
    have hlabel : isCarrier .returnStatement := .inl rfl
    have hxs : w.Settled sims x := (hkids (some c) (by simp)).carried hw.toCoherent hlabel hc
    have hys : w.Settled sims y := (hkids (some a) (by simp)).carried hw.toCoherent hlabel ha
    have hmissing : ¬ (w.normal sims x = .missing ∧ w.normal sims y = .missing) := fun h =>
      hreturned test c a x y hr hc ha ⟨hxs.eq_none hac h.1, hys.eq_none hac h.2⟩
    rw [normal_returned hw hx hr hc ha hxs hys, normal_node hac (hw.valueOf?_node hr rfl) hr]
    simp only [List.map_cons, List.map_nil, normal_carrier hw.toCoherent hlabel hc,
      normal_carrier hw.toCoherent hlabel ha, Sketch.reduce, Sketch.reduce?, hlower, if_true,
      Sketch.lower?_returned hmissing, Option.getD_some]
  | @lowered c a test x y label' hlabel' hr hc ha =>
    obtain ⟨rfl, rfl⟩ := Cell.node.inj (hget.symm.trans hr)
    have hlower : .ifToConditional ∈ sims := by cases sim <;> first | exact hmem | cases hhandles
    have hlabel : isCarrier label' := .inr hlabel'
    have hknown : ∀ {r e}, w.store.get r = .node label' [e] → w.store.KnownAt e := fun hr =>
      knownAt_of_node hw.toCoherent hr _ (by simp)
    have hparts := conditional_parts hw (.refl w) hr
      ⟨hknown hc, isOperand_of_carrier hw.typed hlabel' hc⟩
      ⟨hknown ha, isOperand_of_carrier hw.typed hlabel' ha⟩
    rw [normal_conditional hw hlabel hparts, normal_node hac (hw.valueOf?_node hr rfl) hr]
    simp only [List.map_cons, List.map_nil, normal_carrier hw.toCoherent hlabel hc,
      normal_carrier hw.toCoherent hlabel ha, Sketch.reduce, Sketch.reduce?, hlower, if_true]
    obtain rfl | rfl := hlabel' <;> rfl
  | @selected test c a v hr hv =>
    obtain ⟨rfl, rfl⟩ := Cell.node.inj (hget.symm.trans hr)
    have hfold : .foldConditional ∈ sims := by cases sim <;> first | exact hmem | cases hhandles
    have hfree : w.pool.valueOf? r = none := by
      refine hw.valueOf?_none hr fun v hs => ?_
      cases hs
    have hvalue := (hkids test (by simp)).value hw.toCoherent (.inr hfold)
    rw [hv] at hvalue
    rw [normal_node hac hfree hr]
    simp only [List.map_cons, List.map_nil, Sketch.reduce, Sketch.reduce?, hfold, if_true,
      Sketch.select?, ← hvalue, Option.map_some, Option.getD_some]
    split <;> rfl
  | @unary operator operand u v hr hfree hu hv =>
    obtain ⟨rfl, rfl⟩ := Cell.node.inj (hget.symm.trans hr)
    have hfold : .foldConstant ∈ sims ∨ .foldConditional ∈ sims := by
      cases sim <;> first | exact .inl hmem | exact .inr hmem | cases hhandles
    have hvalue := (hkids operand (by simp)).value hw.toCoherent hfold
    rw [hu] at hvalue
    rw [normal_constant hx hw, normal_node hac (valueOf?_of_isConstant hfree) hr]
    simp only [List.map_cons, List.map_nil, Sketch.reduce, Sketch.reduce?, hfold, if_true,
      Sketch.foldUnary?, ← hvalue, hv, Option.bind_eq_bind, Option.bind_some, Option.getD_some]
  | @binary operator left right a b v hr hfree ha hb hv =>
    obtain ⟨rfl, rfl⟩ := Cell.node.inj (hget.symm.trans hr)
    have hfold : .foldConstant ∈ sims := by cases sim <;> first | exact hmem | cases hhandles
    have hleft := (hkids left (by simp)).value hw.toCoherent (.inl hfold)
    have hright := (hkids right (by simp)).value hw.toCoherent (.inl hfold)
    rw [ha] at hleft
    rw [hb] at hright
    rw [normal_constant hx hw, normal_node hac (valueOf?_of_isConstant hfree) hr]
    simp only [List.map_cons, List.map_nil, Sketch.reduce, Sketch.reduce?, hfold, if_true,
      Sketch.foldBinary?, ← hleft, ← hright, hv, Option.bind_eq_bind, Option.bind_some,
      Option.getD_some]

/-! ## Steps of a list -/

/-- A jump stays one. -/
theorem isJump_normal (hw : w.Coherent strict) {item : Option Ref}
    (h : isJump w.store item = true) : (w.normal sims item).isJump = true := by
  cases item with
  | none => simp [isJump] at h
  | some r =>
    cases hr : w.store.get r with
    | list items => simp [isJump, Store.kind?_list hr] at h
    | node label kids =>
      rw [isJump_node hr (kids.map (w.normal sims))] at h
      have hkind : label.kind.isExpression = false := by
        cases label <;> first | rfl | cases h
      rw [normal_node hw.acyclic (hw.valueOf?_node hr hkind) hr]
      cases label <;> first | rfl | cases h

theorem normal_statement (hw : w.Coherent strict) {item e : Option Ref}
    (h : statementExpression? w.store item = some e) :
    w.normal sims item = .node .expressionStatement [w.normal sims e] := by
  obtain ⟨r, rfl, hr⟩ := statementExpression?_eq h
  exact normal_carrier hw (.inr (.inr rfl)) hr

theorem normal_completion (hw : w.Coherent strict) {item e : Option Ref} {label : Label}
    (h : completion? w.store item = some (label, e)) (hsettled : w.Settled sims e) :
    (w.normal sims item).completion? = some (label, w.normal sims e) := by
  obtain ⟨r, rfl, hr, hlabel⟩ := completion?_eq h
  have hcarrier : isCarrier label := by
    obtain ⟨rfl, -⟩ | rfl := hlabel
    · exact .inl rfl
    · exact .inr (.inl rfl)
  rw [normal_carrier hw hcarrier hr]
  obtain ⟨rfl, hsome⟩ | rfl := hlabel
  · obtain ⟨x, rfl⟩ := Option.isSome_iff_exists.mp hsome
    rw [Sketch.completion?]
    intro hmissing
    exact sketch_ne_missing hw.acyclic x (hsettled.symm.trans hmissing)
  · rfl

theorem normal_dropped (hw : w.Coherent strict) (hdrop : .dropDead ∈ sims) {jump : Option Ref}
    (hjump : isJump w.store jump = true) (before after : List (Option Ref)) :
    Sketch.settle sims ((before ++ [jump]).map (w.normal sims)) =
      Sketch.settle sims ((before ++ jump :: after).map (w.normal sims)) := by
  simp only [List.map_append, List.map_cons, List.map_nil]
  exact (Sketch.settle_dropped hdrop (isJump_normal hw hjump) _ _).symm

theorem normal_completed (hw : w.Kept strict) (hfusion : .completionFusion ∈ sims)
    {statement next first second : Option Ref} {label : Label}
    (hst : statementExpression? w.store statement = some first)
    (hnext : completion? w.store next = some (label, second))
    (hsettled : w.Settled sims next) {before after : List (Option Ref)}
    (hbefore : ∀ e ∈ before, w.store.KnownAt e) (hafter : ∀ e ∈ after, w.store.KnownAt e) :
    Sketch.settle sims ((before ++
        some ((join w first second).2.add label [(join w first second).1]).1 :: after).map
        (((join w first second).2.add label [(join w first second).1]).2.normal sims)) =
      Sketch.settle sims ((before ++ statement :: next :: after).map (w.normal sims)) := by
  obtain ⟨r, c, rfl, rfl, -, hc, hlabel, hfirst, hsecond⟩ := completed_parts hw hst hnext
  have hsecondSettled := hsettled.carried hw.toCoherent hlabel hc
  obtain ⟨hbuilds, hop⟩ := builds_join hw hfirst.1 hsecond.1 hfirst.2 hsecond.2
  obtain ⟨hadds, -⟩ := builds_carrier hw hlabel hbuilds hop
  have hsame : ∀ es : List (Option Ref), (∀ e ∈ es, w.store.KnownAt e) → es.map
      (((join w first second).2.add label [(join w first second).1]).2.normal sims) =
      es.map (w.normal sims) := fun es hes =>
    List.map_congr_left fun e he => hadds.grows.normal hw hadds.kept (hes e he)
  rw [List.map_append, List.map_cons, hsame before hbefore, hsame after hafter,
    normal_add hbuilds.kept hlabel ⟨hbuilds.known, hop⟩,
    normal_join hw hfirst hsecond hsecondSettled, List.map_append, List.map_cons, List.map_cons]
  refine (Sketch.settle_completed hfusion ?_
    (normal_completion hw.toCoherent hnext hsecondSettled) _ _).symm
  rw [normal_statement hw.toCoherent hst]
  rfl

/-- The expressions of a settled run. -/
theorem normal_run {w₀ : Workspace} (hgrows : w₀.Grows w) (hw₀ : w₀.Kept strict)
    (hw : w.Kept strict) {chunk es : List (Option Ref)}
    (hknown : ∀ e ∈ chunk, w₀.store.KnownAt e) (hsettled : ∀ e ∈ chunk, w₀.Settled sims e)
    (hmap : chunk.map (statementExpression? w₀.store) = es.map some) :
    (∀ e ∈ es, w.Settled sims e) ∧ chunk.map (w₀.normal sims) =
      (es.map (w.normal sims)).map fun e => Sketch.node .expressionStatement [e] := by
  induction chunk generalizing es with
  | nil =>
    obtain rfl : es = [] := by simpa using hmap.symm
    simp
  | cons item chunk ih =>
    obtain ⟨e, es, rfl, he, hes⟩ := List.map_eq_cons_iff.mp hmap.symm
    obtain ⟨hitem, hrest⟩ := List.forall_mem_cons.mp hknown
    obtain ⟨hitemSettled, hrestSettled⟩ := List.forall_mem_cons.mp hsettled
    obtain ⟨hsettled', hnormal⟩ := ih hrest hrestSettled hes.symm
    obtain ⟨r, rfl, hr⟩ := statementExpression?_eq he.symm
    have heKnown := knownAt_of_node hw₀.toCoherent hr e (by simp)
    have heSettled := hitemSettled.carried hw₀.toCoherent (.inr (.inr rfl)) hr
    refine ⟨List.forall_mem_cons.mpr ⟨hgrows.settled hw₀ hw heKnown heSettled, hsettled'⟩, ?_⟩
    rw [List.map_cons, List.map_cons, List.map_cons, hnormal,
      normal_statement hw₀.toCoherent he.symm, hgrows.normal hw₀ hw heKnown]

/-- Fused items settle to what the old ones settle to. -/
theorem Sequences.Fuses.normal {w₀ : Workspace} {position : Nat} {items items' : List (Option Ref)}
    {puts : List (Nat × Ref)} {gone : List Nat}
    (h : Fuses w₀.store position w items puts gone items' w') (hfusion : .sequenceFusion ∈ sims)
    (hgrows : w₀.Grows w) (hw₀ : w₀.Kept strict) (hw : w.Kept strict)
    (hknown : ∀ e ∈ items, w₀.store.KnownAt e) (hsettled : ∀ e ∈ items, w₀.Settled sims e) :
    Sketch.settle sims (items'.map (w'.normal sims)) =
      Sketch.settle sims (items.map (w₀.normal sims)) := by
  induction h with
  | nil position w => rfl
  | @keep position w w' item rest rest' puts gone _ hrest ih =>
    obtain ⟨hitem, hknown⟩ := List.forall_mem_cons.mp hknown
    obtain ⟨-, hsettled⟩ := List.forall_mem_cons.mp hsettled
    obtain ⟨htrims, -⟩ := fuses_effect hrest hgrows hw hknown
    have hkept : w'.normal sims item = w₀.normal sims item :=
      (hgrows.trans htrims.grows).normal hw₀ htrims.kept hitem
    have hstep := congrArg (Sketch.push sims (w₀.normal sims item)) (ih hgrows hw hknown hsettled)
    rw [List.map_cons, List.map_cons, hkept]
    exact hstep
  | @fuse position w w' chunk others rest rest' first puts gone hne hmap _ hrest ih =>
    obtain ⟨hchunk, hknown⟩ := List.forall_mem_append.mp hknown
    obtain ⟨hchunkSettled, hsettled⟩ := List.forall_mem_append.mp hsettled
    obtain ⟨hparts, -, -⟩ := run_parts hw hgrows.store hchunk hmap
    obtain ⟨hfirst, hothers⟩ := List.forall_mem_cons.mp hparts
    obtain ⟨hes, hnormal⟩ := normal_run hgrows hw₀ hw hchunk hchunkSettled hmap
    obtain ⟨-, hothersSettled⟩ := List.forall_mem_cons.mp hes
    obtain ⟨hjoin, hop⟩ := builds_joinAll hw hfirst.1 hfirst.2 hothers
    have hstatement : Builds strict w (fusedStatement w first others).2 (first :: others)
        (others.length + 1) (some (fusedStatement w first others).1) :=
      (builds_carrier hw (.inr (.inr rfl)) hjoin hop).1
    have hgrows' : w₀.Grows (fusedStatement w first others).2 := hgrows.trans hstatement.grows
    obtain ⟨htrims, -⟩ := fuses_effect hrest hgrows' hstatement.kept hknown
    -- the new statement carries the expressions of the run, joined
    have hnew : w'.normal sims (some (fusedStatement w first others).1) =
        .node .expressionStatement
          [(others.map (w.normal sims)).foldl .seq (w.normal sims first)] := by
      rw [htrims.grows.normal hstatement.kept htrims.kept hstatement.known,
        ← normal_joinAll hw hfirst fun e he => ⟨hothers e he, hothersSettled e he⟩]
      exact normal_add hjoin.kept (.inr (.inr rfl)) ⟨hjoin.known, hop⟩
    have hstep := congrArg (Sketch.push sims (w'.normal sims
      (some (fusedStatement w first others).1))) (ih hgrows' hstatement.kept hknown hsettled)
    have hfused := Sketch.settle_fused hfusion (w.normal sims first) (others.map (w.normal sims))
      (rest.map (w₀.normal sims))
    rw [← hnew] at hfused
    rw [List.map_append, hnormal]
    exact hstep.trans hfused.symm

end ScriptSimplifier
