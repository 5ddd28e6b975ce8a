import ScriptSimplifier.Proofs.Meaning.Pieces
import ScriptSimplifier.Proofs.Rule.Effects

/-!
# Steps keep the meaning

What a step puts in place may stand for what it replaces (`NodeStep.refines`, `ListStep.refines`).
-/

namespace ScriptSimplifier

open Workspace Sequences Statements

namespace Semantics

variable {S : Semantics} {strict : Strictness} {w w' : Workspace}

/-! ## Statements that carry an expression -/

/-- A statement that carries an expression evaluates it and then completes. -/
theorem carrier_execute (S : Semantics) {label : Label} (h : isCarrier label) :
    ∃ finish : S.Val → Effect S.State S.Val (Completion S.Val),
      ∀ t, S.execute (.node label [t]) = S.evaluate t >>= finish := by
  rcases h with rfl | rfl | rfl
  · exact ⟨fun x => pure (.returned x), fun _ => rfl⟩
  · exact ⟨.throw, fun _ => rfl⟩
  · exact ⟨fun _ => pure .normal, fun _ => rfl⟩

theorem tree_carrier (hw : w.Kept strict) {label : Label} (hlabel : isCarrier label)
    {e : Option Ref} (hknown : w.store.KnownAt e) (he : isOperand w.store strict e = true) :
    (w.add label [e]).2.store.tree (some (w.add label [e]).1) = .node label [w.store.tree e] := by
  have hkids : ∀ x ∈ [e], w.store.KnownAt x := by simpa using hknown
  rw [add_own w [e] hlabel.isOwn]
  exact tree_push hw (hw.push (carrier_typed hlabel he) hkids) hkids

/-- A node whose label asks nothing of bindings assigns properly if its children do. -/
theorem assigns_of_children {label : Label} {children : List Tree}
    (hlabel : label ≠ .assignmentExpression) (h : ∀ t ∈ children, t.assignsTargets = true) :
    (Tree.node label children).assignsTargets = true :=
  allNodes_node.mpr ⟨nodeAssigns_of_ne hlabel children, h⟩

theorem isCarrier_ne {label : Label} (h : isCarrier label) : label ≠ .assignmentExpression := by
  rcases h with rfl | rfl | rfl <;> simp

/-! ## Steps at a node -/

theorem denotes_orUndefined (hw : w.Kept strict) {e : Option Ref}
    (hassigns : (w.store.tree e).assignsTargets = true) :
    S.Denotes (orUndefined w e).2.store (orUndefined w e).1 (S.evaluate (w.store.tree e)) := by
  cases e with
  | some r => exact ⟨rfl, hassigns⟩
  | none =>
    obtain ⟨_, hkept, hmem⟩ := hw.constant .undefined
    have hfragment := denotes_fragment S hkept.toCoherent hmem
    rw [Store.tree_none]
    exact hfragment

/-- An if statement whose branches carry expressions does what a statement with a conditional
expression does. -/
theorem execute_conditional (S : Semantics) {label : Label} (hlabel : isCarrier label)
    (test c a : Tree) :
    S.execute (.node label [.node .conditionalExpression [test, c, a]]) =
      S.execute (.node .ifStatement [test, .node label [c], .node label [a]]) := by
  obtain ⟨finish, hfinish⟩ := carrier_execute S hlabel
  rw [hfinish, Semantics.execute]
  simp only [Semantics.evaluate, hfinish, bind_assoc]
  congr 1
  funext x
  split <;> rfl

/-- Replacing an if statement by a statement with a conditional expression keeps what it does. -/
theorem conditionalStatement_execute (hw : w.Kept strict) (hgrows : w.Grows w')
    (hw' : w'.Kept strict) {r c a : Ref} {test x y x' y' : Option Ref} {label : Label}
    (hlabel : isCarrier label) (hr : w.store.get r = .node .ifStatement [test, some c, some a])
    (hc : w.store.get c = .node label [x]) (ha : w.store.get a = .node label [y])
    (hx : w'.store.KnownAt x' ∧ isOperand w'.store strict x' = true)
    (hy : w'.store.KnownAt y' ∧ isOperand w'.store strict y' = true)
    (hmx : S.Denotes w'.store x' (S.evaluate (w.store.tree x)))
    (hmy : S.Denotes w'.store y' (S.evaluate (w.store.tree y)))
    (hassigns : (w.store.tree test).assignsTargets = true) :
    S.execute ((conditionalStatement w' label test x' y').2.store.tree
        (some (conditionalStatement w' label test x' y').1)) = S.execute (w.store.tree (some r)) ∧
      ((conditionalStatement w' label test x' y').2.store.tree
        (some (conditionalStatement w' label test x' y').1)).assignsTargets = true := by
  have hparts := conditional_parts hw hgrows hr hx hy
  obtain ⟨hconditional, hop⟩ := builds_conditional hw' hparts
  have htest : w'.store.tree test = w.store.tree test :=
    hgrows.store.tree hw.acyclic hw.closed hw'.acyclic
      (knownAt_of_node hw.toCoherent hr test (by simp))
  have htree : (conditionalStatement w' label test x' y').2.store.tree
      (some (conditionalStatement w' label test x' y').1) =
      .node label [.node .conditionalExpression
        [w.store.tree test, w'.store.tree x', w'.store.tree y']] := by
    rw [conditionalStatement_eq, tree_carrier hconditional.kept hlabel hconditional.known hop,
      tree_push hw' hconditional.kept fun e he => (hparts e he).1]
    simp only [List.map_cons, List.map_nil, htest]
  rw [htree]
  constructor
  · rw [execute_conditional S hlabel, hw.acyclic.tree_node hr]
    obtain ⟨finish, hfinish⟩ := carrier_execute S hlabel
    simp only [Semantics.execute, List.map_cons, List.map_nil, hw.acyclic.tree_node hc,
      hw.acyclic.tree_node ha, hfinish, hmx.evaluate, hmy.evaluate]
  · refine assigns_of_children (isCarrier_ne hlabel) ?_
    rw [List.forall_mem_singleton]
    refine assigns_of_children (by simp) ?_
    simpa using ⟨hassigns, hmx.assigns, hmy.assigns⟩

/-- What replaces a statement may stand for it if it does the same. -/
theorem refines_of_execute (hw : w.Kept strict) {r : Ref} {n : Option Ref} {label : Label}
    {kids : List (Option Ref)} (h : Replaces strict w w' r n) (hn : n ≠ none)
    (hr : w.store.get r = .node label kids)
    (hstatement : Category.statement.accepts label.kind = true)
    (hexecute : S.execute (w'.store.tree n) = S.execute (w.store.tree (some r)))
    (hassigns : (w'.store.tree n).assignsTargets = true) :
    S.Refines (w.store.tree (some r)) (w'.store.tree n) := by
  have hin := isIn_node hr hstatement
  refine refines_of_statement ?_ ?_ hassigns hexecute
  · rw [Store.isIn_tree hw.acyclic]
    exact hin
  · rw [Store.isIn_tree h.builds.kept.acyclic]
    exact (h.category _ hin).resolve_left fun hnone => hn hnone.1

/-- What replaces an expression may stand for it if it does the same. -/
theorem refines_of_evaluate (hw : w.Kept strict) {r : Ref} {n : Option Ref} {label : Label}
    {kids : List (Option Ref)} (h : Replaces strict w w' r n) (hn : n ≠ none)
    (hr : w.store.get r = .node label kids)
    (hexpression : Category.expression.accepts label.kind = true)
    (hevaluate : S.evaluate (w'.store.tree n) = S.evaluate (w.store.tree (some r)))
    (hassigns : (w'.store.tree n).assignsTargets = true) :
    S.Refines (w.store.tree (some r)) (w'.store.tree n) := by
  have hin := isIn_node hr hexpression
  refine refines_of_expression ?_ ?_ hassigns ?_ hevaluate
  · rw [Store.isIn_tree hw.acyclic]
    exact hin
  · rw [Store.isIn_tree h.builds.kept.acyclic]
    exact (h.category _ hin).resolve_left fun hnone => hn hnone.1
  · obtain ⟨kind, hkind, hreplaceable⟩ := h.kind
    rw [Store.kind?_node hr, Option.some.injEq] at hkind
    subst hkind
    rw [hw.acyclic.tree_node hr]
    cases label <;> first | rfl | simp [Label.kind, Kind.isReplaceable] at hreplaceable

/-- What replaces a node may stand for it. -/
theorem refines_nodeStep (hw : w.Kept strict) {r : Ref} {n : Option Ref} (h : NodeStep w r n w')
    (hn : n ≠ none) (hassigns : (w.store.tree (some r)).assignsTargets = true) :
    S.Refines (w.store.tree (some r)) (w'.store.tree n) := by
  have heffect := h.effect hw
  cases h with
  | @emptied block list hr hblock hlist =>
    have hempty : w.store.tree (some .emptyStatement) = .node .emptyStatement [] := by
      have hget : w.store.get .emptyStatement = .node .emptyStatement [] := rfl
      rw [hw.acyclic.tree_node hget, List.map_nil]
    refine refines_of_execute hw heffect hn hr rfl ?_ (hempty ▸ rfl)
    rw [hempty, hw.acyclic.tree_node hr]
    simp only [List.map_cons, List.map_nil, hw.acyclic.tree_node hblock, hw.acyclic.tree_list hlist,
      Semantics.execute, Semantics.run, Semantics.executeItems, Semantics.executeAll]
  | @unwrapped block list _ hr hblock hlist =>
    have hblock' := Store.assigns_child hw.acyclic hr hassigns (some block) (by simp)
    have hlist' := Store.assigns_child hw.acyclic hblock hblock' (some list) (by simp)
    refine refines_of_execute hw heffect hn hr rfl ?_
      ((Store.assigns_list hw.acyclic hlist).mp hlist' _ List.mem_cons_self)
    rw [hw.acyclic.tree_node hr]
    simp only [List.map_cons, List.map_nil, hw.acyclic.tree_node hblock, hw.acyclic.tree_list hlist,
      Semantics.execute, Semantics.run, Semantics.executeItems, executeAll_singleton]
  | @returned c a test x y hr hc ha =>
    obtain ⟨hx, hy, hxop, hyop⟩ := builds_returned hw hc ha
    have hbelow := Store.assigns_child hw.acyclic hr hassigns
    have hxassigns := Store.assigns_child hw.acyclic hc (hbelow (some c) (by simp)) x (by simp)
    have hyassigns := Store.assigns_child hw.acyclic ha (hbelow (some a) (by simp)) y (by simp)
    have hytree : (orUndefined w x).2.store.tree y = w.store.tree y :=
      hx.grows.store.tree hw.acyclic hw.closed hx.kept.acyclic
        (knownAt_of_node hw.toCoherent ha y (by simp))
    -- the second value is built after the first one and leaves it as it is
    have hmx := (denotes_orUndefined (S := S) hw hxassigns).grow hy.grows hx.kept.toCoherent
      hy.kept.toCoherent hx.known
    have hmy := denotes_orUndefined (S := S) hx.kept (hytree ▸ hyassigns)
    rw [hytree] at hmy
    obtain ⟨hexecute, hassigns'⟩ := conditionalStatement_execute hw (hx.grows.trans hy.grows)
      hy.kept (.inl rfl) hr hc ha ⟨hy.grows.store.knownAt hx.known, hxop⟩ ⟨hy.known, hyop⟩ hmx hmy
      (hbelow test (by simp))
    exact refines_of_execute hw heffect hn hr rfl hexecute hassigns'
  | @lowered c a test x y label hlabel hr hc ha =>
    have hbelow := Store.assigns_child hw.acyclic hr hassigns
    have hxassigns := Store.assigns_child hw.acyclic hc (hbelow (some c) (by simp)) x (by simp)
    have hyassigns := Store.assigns_child hw.acyclic ha (hbelow (some a) (by simp)) y (by simp)
    obtain ⟨hexecute, hassigns'⟩ := conditionalStatement_execute (S := S) hw (.refl w) hw
      (.inr hlabel) hr hc ha
      ⟨knownAt_of_node hw.toCoherent hc x (by simp), isOperand_of_carrier hw.typed hlabel hc⟩
      ⟨knownAt_of_node hw.toCoherent ha y (by simp), isOperand_of_carrier hw.typed hlabel ha⟩
      ⟨rfl, hxassigns⟩ ⟨rfl, hyassigns⟩ (hbelow test (by simp))
    exact refines_of_execute hw heffect hn hr rfl hexecute hassigns'
  | @selected test c a v hr hv =>
    refine refines_of_evaluate hw heffect hn hr rfl ?_
      (Store.assigns_child hw.acyclic hr hassigns _ (by split <;> simp))
    rw [hw.acyclic.tree_node hr]
    simp only [List.map_cons, List.map_nil, Semantics.evaluate,
      evaluate_of_valueOf S hw.toCoherent hv, pure_bind, S.truthy_primitive]
    split <;> rfl
  | @unary operator operand u v hr hfree hu hv =>
    obtain ⟨_, hkept, hmem⟩ := hw.constant v
    have hfragment := denotes_fragment S hkept.toCoherent hmem
    refine refines_of_evaluate hw heffect hn hr rfl ?_ hfragment.assigns
    rw [hfragment.evaluate, hw.acyclic.tree_node hr]
    simp only [List.map_cons, List.map_nil, Semantics.evaluate,
      evaluate_of_valueOf S hw.toCoherent hu]
    exact (S.unary_primitive operator u v hv).symm
  | @binary operator left right a b v hr hfree ha hb hv =>
    obtain ⟨_, hkept, hmem⟩ := hw.constant v
    have hfragment := denotes_fragment S hkept.toCoherent hmem
    have hcomma : operator ≠ comma := by
      rintro rfl
      simp [evalBinary?_comma] at hv
    refine refines_of_evaluate hw heffect hn hr rfl ?_ hfragment.assigns
    rw [hfragment.evaluate, hw.acyclic.tree_node hr]
    simp only [List.map_cons, List.map_nil, Semantics.evaluate, if_neg hcomma,
      evaluate_of_valueOf S hw.toCoherent ha, evaluate_of_valueOf S hw.toCoherent hb]
    exact (S.binary_primitive operator a b v hv).symm

/-! ## Steps of a list -/

theorem isJump_eq {s : Store} {item : Option Ref} (h : isJump s item = true) :
    ∃ r label kids, item = some r ∧ s.get r = .node label kids ∧
      (label = .returnStatement ∨ label = .throwStatement ∨
        (∃ target, label = .breakStatement target) ∨
        ∃ target, label = .continueStatement target) := by
  cases item with
  | none => simp [isJump] at h
  | some r =>
    cases hr : s.get r with
    | list items => simp [isJump, Store.kind?_list hr] at h
    | node label kids =>
      refine ⟨r, label, kids, rfl, hr, ?_⟩
      rw [isJump, Option.bind_some, Store.kind?_node hr] at h
      cases label <;> simp [Label.kind] at h ⊢

/-- Nothing is executed after a jump. -/
theorem execute_jump (S : Semantics) {label : Label} {children : List Tree}
    (h : label = .returnStatement ∨ label = .throwStatement ∨
      (∃ target, label = .breakStatement target) ∨ ∃ target, label = .continueStatement target)
    (after : Effect S.State S.Val (Completion S.Val)) :
    Completion.andThen (S.execute (.node label children)) after =
      S.execute (.node label children) := by
  rcases h with rfl | rfl | ⟨target, rfl⟩ | ⟨target, rfl⟩
  · rcases children with _ | ⟨t, _ | ⟨u, rest⟩⟩
    · exact Effect.stuck_bind _
    · simp only [Semantics.execute, Completion.andThen, bind_assoc, pure_bind]
    · exact Effect.stuck_bind _
  · rcases children with _ | ⟨t, _ | ⟨u, rest⟩⟩
    · exact Effect.stuck_bind _
    · simp only [Semantics.execute, Completion.andThen, bind_assoc, Effect.throw_bind]
    · exact Effect.stuck_bind _
  · simp only [Semantics.execute, Completion.andThen, pure_bind]
  · simp only [Semantics.execute, Completion.andThen, pure_bind]

theorem andThen_expression (S : Semantics) (t : Tree)
    (after : Effect S.State S.Val (Completion S.Val)) :
    Completion.andThen (S.execute (.node .expressionStatement [t])) after =
      S.evaluate t >>= fun _ => after := by
  simp only [Semantics.execute, Completion.andThen, bind_assoc, pure_bind]

/-- Expression statements in a row evaluate their expressions one after the other. -/
theorem executeAll_run (S : Semantics) (first : Tree) (others : List Tree) :
    S.executeAll ((first :: others).map fun t => .node .expressionStatement [t]) =
      ((others.map S.evaluate).foldl Effect.next (S.evaluate first) >>= fun _ => pure .normal) := by
  induction others generalizing first with
  | nil => exact executeAll_singleton S _
  | cons t rest ih =>
    rw [List.map_cons, Semantics.executeAll, ih t, andThen_expression, List.map_cons,
      List.foldl_cons, ← Effect.next_foldl, Effect.next, bind_assoc]

/-- One expression statement may stand for a run of them. -/
theorem refinesAll_run {first joined : Tree} {others : List Tree}
    (hassigns : joined.assignsTargets = true)
    (hjoined : S.evaluate joined =
      (others.map S.evaluate).foldl Effect.next (S.evaluate first)) :
    S.RefinesAll ((first :: others).map fun t => .node .expressionStatement [t])
      [.node .expressionStatement [joined]] := by
  have hin : ∀ t, (Tree.node .expressionStatement [t]).isIn .statement = true := fun _ => rfl
  refine refinesAll_of_statements ?_ (by simpa using hin joined) ?_ ?_
  · intro t ht
    obtain ⟨u, _, rfl⟩ := List.mem_map.mp ht
    exact hin u
  · rw [List.forall_mem_singleton]
    exact assigns_of_children (by simp) (by simpa using hassigns)
  · rw [executeAll_singleton, executeAll_run, ← hjoined]
    rfl

/-- A return or throw may stand for itself and an expression statement before it. -/
theorem refinesAll_completed {label : Label} (hlabel : isCarrier label)
    {first second joined : Tree} (hassigns : joined.assignsTargets = true)
    (hjoined : S.evaluate joined = (S.evaluate first).next (S.evaluate second)) :
    S.RefinesAll [.node .expressionStatement [first], .node label [second]]
      [.node label [joined]] := by
  have hin : ∀ t, (Tree.node label [t]).isIn .statement = true := fun t => hlabel.isStatement
  refine refinesAll_of_statements ?_ (by simpa using hin joined) ?_ ?_
  · simpa using ⟨rfl, hin second⟩
  · rw [List.forall_mem_singleton]
    exact assigns_of_children (isCarrier_ne hlabel) (by simpa using hassigns)
  · obtain ⟨finish, hfinish⟩ := carrier_execute S hlabel
    rw [executeAll_singleton, Semantics.executeAll, executeAll_singleton, andThen_expression,
      hfinish, hfinish, hjoined, Effect.next, bind_assoc]

/-- The statements of a run are expression statements. -/
theorem run_trees {s : Store} (hw : w.Kept strict) (hs : s.Extends w.store)
    {chunk es : List (Option Ref)} (hknown : ∀ e ∈ chunk, s.KnownAt e)
    (hmap : chunk.map (statementExpression? s) = es.map some) :
    chunk.map w.store.tree =
      (es.map w.store.tree).map fun t => .node .expressionStatement [t] := by
  induction chunk generalizing es with
  | nil =>
    obtain rfl : es = [] := by simpa using hmap.symm
    rfl
  | cons item rest ih =>
    cases es with
    | nil => simp at hmap
    | cons e es =>
      simp only [List.map_cons, List.cons.injEq] at hmap
      obtain ⟨hitem, hrest⟩ := List.forall_mem_cons.mp hknown
      obtain ⟨r, rfl, hr⟩ := statementExpression?_eq hmap.1
      have hr' : w.store.get r = .node .expressionStatement [e] := by
        rw [hs.get r (Store.knownAt_some.mp hitem), hr]
      rw [List.map_cons, ih hrest hmap.2, hw.acyclic.tree_node hr']
      rfl

/-- The statement that a run becomes may stand for the run. -/
theorem refines_fusedStatement {s : Store} (hw : w.Kept strict) (hs : s.Extends w.store)
    {chunk others : List (Option Ref)} {first : Option Ref} (hknown : ∀ e ∈ chunk, s.KnownAt e)
    (hmap : chunk.map (statementExpression? s) = (first :: others).map some)
    (hassigns : ∀ t ∈ chunk.map w.store.tree, t.assignsTargets = true) :
    w.Grows (fusedStatement w first others).2 ∧ (fusedStatement w first others).2.Kept strict ∧
      (fusedStatement w first others).2.store.Known (fusedStatement w first others).1 ∧
      S.RefinesAll (chunk.map w.store.tree) [(fusedStatement w first others).2.store.tree
        (some (fusedStatement w first others).1)] := by
  have hcarrier : isCarrier .expressionStatement := .inr (.inr rfl)
  obtain ⟨hparts, _, _⟩ := run_parts hw hs hknown hmap
  obtain ⟨⟨hfk, hfo⟩, hothers⟩ := List.forall_mem_cons.mp hparts
  obtain ⟨hjoin, hop⟩ := builds_joinAll hw hfk hfo hothers
  obtain ⟨hstatement, _⟩ := builds_carrier hw hcarrier hjoin hop
  have htree := tree_carrier hjoin.kept hcarrier hjoin.known hop
  rw [run_trees hw hs hknown hmap, List.forall_mem_map] at hassigns
  have hexpressions : ∀ t ∈ (first :: others).map w.store.tree, t.assignsTargets = true :=
    fun t ht => (allNodes_node.mp (hassigns t ht)).2 t List.mem_cons_self
  obtain ⟨hfirst, hrest⟩ := List.forall_mem_cons.mp hexpressions
  have hmeaning : S.Denotes _ _ _ := denotes_joinAll hw hfk hfo hothers ⟨rfl, hfirst⟩ hrest
  refine ⟨hstatement.grows, hstatement.kept, Store.knownAt_some.mp hstatement.known, ?_⟩
  rw [run_trees hw hs hknown hmap]
  exact htree ▸ refinesAll_run hmeaning.assigns hmeaning.evaluate

/-- Fusing runs keeps what a list means. -/
theorem refines_fuses {w₀ : Workspace} {position : Nat} {items items' : List (Option Ref)}
    {puts : List (Nat × Ref)} {gone : List Nat}
    (h : Fuses w₀.store position w items puts gone items' w') (hgrows : w₀.Grows w)
    (hw : w.Kept strict) (hknown : ∀ e ∈ items, w₀.store.KnownAt e)
    (hassigns : ∀ t ∈ items.map w.store.tree, t.assignsTargets = true) :
    S.RefinesAll (items.map w.store.tree) (items'.map w'.store.tree) := by
  induction h with
  | nil position w => exact .refl (by simp)
  | @keep position w w' item rest rest' puts gone _ hrest ih =>
    obtain ⟨hitem, hknown'⟩ := List.forall_mem_cons.mp hknown
    obtain ⟨hitemAssigns, hassigns'⟩ := List.forall_mem_cons.mp hassigns
    -- what is built behind an item does not change the tree of the item
    obtain ⟨htrims, _⟩ := fuses_effect hrest hgrows hw hknown'
    have htree : w'.store.tree item = w.store.tree item :=
      htrims.grows.store.tree hw.acyclic hw.closed htrims.kept.acyclic
        (hgrows.store.knownAt hitem)
    rw [List.map_cons, List.map_cons, htree]
    exact (RefinesAll.singleton (.refl hitemAssigns)).append (ih hgrows hw hknown' hassigns')
  | @fuse position w w' chunk others rest rest' first puts gone hne hmap _ hrest ih =>
    obtain ⟨hchunk, hafter⟩ := List.forall_mem_append.mp hknown
    rw [List.map_append] at hassigns
    obtain ⟨hchunkAssigns, hafterAssigns⟩ := List.forall_mem_append.mp hassigns
    obtain ⟨hgrows', hkept', hstatement, hrefines⟩ :=
      refines_fusedStatement (S := S) hw hgrows.store hchunk hmap hchunkAssigns
    have htrees := trees_grow hgrows' hw.toCoherent hkept'.toCoherent
      fun e he => hgrows.store.knownAt (hafter e he)
    obtain ⟨htrims, _⟩ := fuses_effect hrest (hgrows.trans hgrows') hkept' hafter
    have htree := htrims.grows.store.tree hkept'.acyclic hkept'.closed htrims.kept.acyclic
      (Store.knownAt_some.mpr hstatement)
    have hstep := ih (hgrows.trans hgrows') hkept' hafter (htrees ▸ hafterAssigns)
    rw [htrees] at hstep
    rw [List.map_append, List.map_cons, htree]
    exact hrefines.append hstep

/-- What a list becomes may stand for it. -/
theorem refines_listStep (hw : w.Kept strict) {items items' : List (Option Ref)}
    (h : ListStep w items items' w') (hknown : ∀ e ∈ items, w.store.KnownAt e)
    {category : Category} (hcategory : ∀ e ∈ items, w.store.isIn category e = true)
    (hassigns : ∀ t ∈ items.map w.store.tree, t.assignsTargets = true) :
    S.RefinesAll (items.map w.store.tree) (items'.map w'.store.tree) := by
  cases h with
  | @dropped before after jump hjump hafter =>
    obtain ⟨r, label, kids, rfl, hr, hlabel⟩ := isJump_eq hjump
    have hstatement : Category.statement.accepts label.kind = true := by
      rcases hlabel with rfl | rfl | ⟨target, rfl⟩ | ⟨target, rfl⟩ <;> rfl
    obtain rfl := category_eq hr (hcategory _ (by simp)) hstatement
    have hstatements : ∀ t ∈ (some r :: after).map w.store.tree, t.isIn .statement = true := by
      rw [List.forall_mem_map]
      intro e he
      rw [Store.isIn_tree hw.acyclic]
      exact hcategory e (List.mem_append_right _ he)
    rw [List.map_append] at hassigns
    obtain ⟨hbefore, hbehind⟩ := List.forall_mem_append.mp hassigns
    rw [List.map_append, List.map_append]
    refine (RefinesAll.refl hbefore).append (refinesAll_of_statements hstatements ?_ ?_ ?_)
    · simpa using hstatements _ List.mem_cons_self
    · simpa using hbehind _ List.mem_cons_self
    · -- nothing behind a jump is executed
      rw [List.map_cons, List.map_nil, executeAll_singleton, List.map_cons, Semantics.executeAll,
        hw.acyclic.tree_node hr, execute_jump S hlabel]
  | @completed before after statement next first second label hst hnext =>
    obtain ⟨r, c, rfl, rfl, hr, hc, hcarrier, ⟨hfk, hfo⟩, hsk, hso⟩ := completed_parts hw hst hnext
    obtain ⟨hjoin, hop⟩ := builds_join hw hfk hsk hfo hso
    obtain ⟨hstatement, _⟩ := builds_carrier hw hcarrier hjoin hop
    have htree := tree_carrier hjoin.kept hcarrier hjoin.known hop
    obtain ⟨hbeforeKnown, hbehindKnown⟩ := List.forall_mem_append.mp hknown
    have hafterKnown : ∀ e ∈ after, w.store.KnownAt e := fun e he => hbehindKnown e (by simp [he])
    rw [List.map_append] at hassigns
    obtain ⟨hbefore, hbehind⟩ := List.forall_mem_append.mp hassigns
    obtain ⟨hstatementAssigns, hrest⟩ := List.forall_mem_cons.mp hbehind
    obtain ⟨hnextAssigns, hafter⟩ := List.forall_mem_cons.mp hrest
    have hmeaning : S.Denotes _ _ _ := denotes_join hw hfk hsk hfo hso
      ⟨rfl, Store.assigns_child hw.acyclic hr hstatementAssigns first (by simp)⟩
      ⟨rfl, Store.assigns_child hw.acyclic hc hnextAssigns second (by simp)⟩
    have hpair := refinesAll_completed hcarrier hmeaning.assigns hmeaning.evaluate
    rw [List.map_append, List.map_append, List.map_cons, List.map_cons, List.map_cons, htree,
      trees_grow hstatement.grows hw.toCoherent hstatement.kept.toCoherent hbeforeKnown,
      trees_grow hstatement.grows hw.toCoherent hstatement.kept.toCoherent hafterKnown,
      hw.acyclic.tree_node hr, hw.acyclic.tree_node hc]
    exact (RefinesAll.refl hbefore).append (hpair.append (RefinesAll.refl hafter))
  | @fused _ _ puts gone _ hgone hfuses => exact refines_fuses hfuses (.refl w) hw hknown hassigns

end Semantics

end ScriptSimplifier
