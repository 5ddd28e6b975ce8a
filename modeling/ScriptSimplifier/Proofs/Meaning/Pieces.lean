import ScriptSimplifier.Proofs.Meaning.Refinement
import ScriptSimplifier.Proofs.Rule.Building

/-!
# Meaning of what rules build

What the fragments of the pool mean, what is known about the value of an element, and what joining
expressions by commas means (`evaluate_of_valueOf`, `denotes_join`).
-/

namespace ScriptSimplifier

open Workspace Sequences

/-! ## Trees of a store -/

namespace Store

variable {s : Store} {r : Ref}

theorem assigns_node (hs : s.Acyclic) {label : Label} {kids : List (Option Ref)}
    (hr : s.get r = .node label kids) :
    (s.tree (some r)).assignsTargets = true ↔
      Tree.nodeAssigns label (kids.map s.tree) = true ∧
        ∀ e ∈ kids, (s.tree e).assignsTargets = true := by
  rw [hs.tree_node hr, Tree.assignsTargets, allNodes_node, List.forall_mem_map]
  rfl

theorem assigns_child (hs : s.Acyclic) {label : Label} {kids : List (Option Ref)}
    (hr : s.get r = .node label kids) (h : (s.tree (some r)).assignsTargets = true) :
    ∀ e ∈ kids, (s.tree e).assignsTargets = true :=
  ((assigns_node hs hr).mp h).2

theorem assigns_list (hs : s.Acyclic) {items : List (Option Ref)} (hr : s.get r = .list items) :
    (s.tree (some r)).assignsTargets = true ↔ ∀ e ∈ items, (s.tree e).assignsTargets = true := by
  rw [hs.tree_list hr, Tree.assignsTargets, allNodes_list, List.forall_mem_map]
  rfl

end Store

/-- Nodes other than assignments ask nothing of their bindings. -/
theorem nodeAssigns_of_ne {label : Label} (h : label ≠ .assignmentExpression)
    (children : List Tree) : Tree.nodeAssigns label children = true := by
  simp [Tree.nodeAssigns, h]

namespace Semantics

variable {S : Semantics} {strict : Strictness} {w w' : Workspace}

/-- An element evaluates in a certain way, and its assignments are to names and members. -/
structure Denotes (S : Semantics) (s : Store) (e : Option Ref) (m : Effect S.State S.Val S.Val) :
    Prop where
  evaluate : S.evaluate (s.tree e) = m
  assigns : (s.tree e).assignsTargets = true

theorem Denotes.grow {e : Option Ref} {m : Effect S.State S.Val S.Val}
    (h : S.Denotes w.store e m) (hgrows : w.Grows w') (hw : w.Coherent strict)
    (hw' : w'.Coherent strict) (he : w.store.KnownAt e) : S.Denotes w'.store e m := by
  have htree := hgrows.store.tree hw.acyclic hw.closed hw'.acyclic he
  exact ⟨htree ▸ h.evaluate, htree ▸ h.assigns⟩

/-- Trees do not change when the workspace grows. -/
theorem trees_grow {es : List (Option Ref)} (hgrows : w.Grows w') (hw : w.Coherent strict)
    (hw' : w'.Coherent strict) (hes : ∀ e ∈ es, w.store.KnownAt e) :
    es.map w'.store.tree = es.map w.store.tree :=
  List.map_congr_left fun e he => hgrows.store.tree hw.acyclic hw.closed hw'.acyclic (hes e he)

/-! ## Constants -/

theorem evaluate_literal (S : Semantics) {label : Label} {v : Value} (h : label.value? = some v)
    (children : List Tree) : S.evaluate (.node label children) = pure (S.primitive v) := by
  cases label <;> first | (obtain rfl := Option.some.inj h; rfl) | simp [Label.value?] at h

/-- A fragment evaluates to its value. -/
theorem denotes_fragment (S : Semantics) (hw : w.Coherent strict) {v : Value} {r : Ref}
    (h : (v, r) ∈ w.pool.entries) : S.Denotes w.store (some r) (pure (S.primitive v)) := by
  -- fragments are built of fragments, and the store has no cycles
  induction r using hw.acyclic.induction generalizing v with
  | step r ih =>
    obtain ⟨label, kids, hr, hspelling⟩ := hw.spelled v r h
    have hholds : ∀ c, some c ∈ kids → w.store.Holds r c := by
      intro c hc
      rw [Store.Holds, Store.below, hr]
      exact hc
    cases hspelling with
    | literal hv =>
      refine ⟨?_, (Store.assigns_node hw.acyclic hr).mpr ⟨nodeAssigns_of_ne ?_ _, by simp⟩⟩
      · rw [hw.acyclic.tree_node hr, evaluate_literal S hv]
      · rintro rfl
        simp [Label.value?] at hv
    | @unary u _ operator o ho hv =>
      have hoperand := ih o (hholds o (by simp)) ho
      refine ⟨?_, (Store.assigns_node hw.acyclic hr).mpr
        ⟨nodeAssigns_of_ne (by simp) _, by simpa using hoperand.assigns⟩⟩
      rw [hw.acyclic.tree_node hr]
      simp only [List.map_cons, List.map_nil, Semantics.evaluate, hoperand.evaluate]
      exact S.unary_primitive operator u v hv
    | @binary l k _ operator a b ha hb hv =>
      have hleft := ih a (hholds a (by simp)) ha
      have hright := ih b (hholds b (by simp)) hb
      refine ⟨?_, (Store.assigns_node hw.acyclic hr).mpr
        ⟨nodeAssigns_of_ne (by simp) _, by simpa using ⟨hleft.assigns, hright.assigns⟩⟩⟩
      -- the meaning of a comma is not that of an operator on values
      have hcomma : operator ≠ comma := by
        rintro rfl
        simp [evalBinary?_comma] at hv
      rw [hw.acyclic.tree_node hr]
      simp only [List.map_cons, List.map_nil, Semantics.evaluate, hleft.evaluate, hright.evaluate,
        if_neg hcomma]
      exact S.binary_primitive operator l k v hv

/-- An element with a known value evaluates to it. -/
theorem evaluate_of_valueOf (S : Semantics) (hw : w.Coherent strict) {e : Option Ref} {v : Value}
    (hvalue : w.valueOf? e = some v) : S.evaluate (w.store.tree e) = pure (S.primitive v) := by
  obtain ⟨r, rfl, h⟩ := Option.bind_eq_some_iff.mp hvalue
  split at h
  · rename_i hfragment
    obtain rfl := Option.some.inj h
    exact (denotes_fragment S hw (Pool.valueOf?_eq_some hfragment)).evaluate
  · rename_i hr
    obtain rfl := Option.some.inj h
    rw [hw.acyclic.tree_node hr, evaluate_literal S rfl]
  · rename_i hr
    obtain rfl := Option.some.inj h
    rw [hw.acyclic.tree_node hr, evaluate_literal S rfl]
  · rename_i hr
    obtain rfl := Option.some.inj h
    rw [hw.acyclic.tree_node hr, evaluate_literal S rfl]
  · rename_i hr
    obtain rfl := Option.some.inj h
    rw [hw.acyclic.tree_node hr, evaluate_literal S rfl]
  · -- the negation of a numeric literal
    rename_i operator operand _ hr
    split at h
    · rename_i x _ hoperand
      split at h
      · rename_i hminus
        obtain rfl := hminus
        obtain rfl := Option.some.inj h
        rw [hw.acyclic.tree_node hr]
        simp only [List.map_cons, List.map_nil, Semantics.evaluate, hw.acyclic.tree_node hoperand]
        exact S.unary_primitive _ _ _ (evalUnary?_minus x)
      · simp at h
    · simp at h
  · simp at h

/-! ## Comma expressions -/

theorem evaluate_comma (S : Semantics) (left right : Tree) :
    S.evaluate (.node (.binaryExpression comma) [left, right]) =
      (S.evaluate left).next (S.evaluate right) := by
  simp only [Semantics.evaluate, if_true]

/-- Expressions that stand for one are evaluated one after the other. -/
theorem expands_evaluate {s : Store} (hs : s.Acyclic) {e : Option Ref} {ls : List (Option Ref)}
    (h : Expands s e ls) (a : Effect S.State S.Val S.Val) :
    ((ls.map s.tree).map S.evaluate).foldl Effect.next a = a.next (S.evaluate (s.tree e)) := by
  induction h generalizing a with
  | leaf e => rfl
  | comma hr _ _ ihl ihr =>
    rw [List.map_append, List.map_append, List.foldl_append, ihl, ihr, hs.tree_node hr,
      Effect.next_assoc]
    simp only [List.map_cons, List.map_nil, evaluate_comma]

theorem expands_assigns {s : Store} (hs : s.Acyclic) {e : Option Ref} {ls : List (Option Ref)}
    (h : Expands s e ls) (he : (s.tree e).assignsTargets = true) :
    ∀ t ∈ ls.map s.tree, t.assignsTargets = true := by
  induction h with
  | leaf e => simpa using he
  | comma hr _ _ ihl ihr =>
    have hkids := Store.assigns_child hs hr he
    have hleft := ihl (hkids _ (by simp))
    have hright := ihr (hkids _ (by simp))
    rw [List.map_append]
    exact fun t ht => (List.mem_append.mp ht).elim (hleft t) (hright t)

/-- The tree of a new node. -/
theorem tree_push (hw : w.Kept strict) {label : Label} {kids : List (Option Ref)}
    (hpush : (w.push (.node label kids)).Kept strict) (hknown : ∀ e ∈ kids, w.store.KnownAt e) :
    (w.push (.node label kids)).store.tree (some w.store.next) =
      .node label (kids.map w.store.tree) := by
  rw [hpush.acyclic.tree_node (w.store.get_push_next _)]
  rw [trees_grow (w.grows_push _) hw.toCoherent hpush.toCoherent hknown]

theorem denotes_comma (hw : w.Kept strict) {left right : Option Ref}
    {a b : Effect S.State S.Val S.Val}
    (hpush : (w.push (.node (.binaryExpression comma) [left, right])).Kept strict)
    (hknown : ∀ e ∈ [left, right], w.store.KnownAt e) (ha : S.Denotes w.store left a)
    (hb : S.Denotes w.store right b) :
    S.Denotes (w.push (.node (.binaryExpression comma) [left, right])).store
      (some w.store.next) (a.next b) := by
  have htree := tree_push hw hpush hknown
  refine ⟨?_, ?_⟩
  · rw [htree]
    simp only [List.map_cons, List.map_nil, evaluate_comma, ha.evaluate, hb.evaluate]
  · rw [htree]
    refine allNodes_node.mpr ⟨nodeAssigns_of_ne (by simp) _, ?_⟩
    simpa using ⟨ha.assigns, hb.assigns⟩

theorem denotes_append (hw : w.Kept strict) {left : Option Ref} {ls : List (Option Ref)}
    (hknown : w.store.KnownAt left) (hleft : isOperand w.store strict left = true)
    (hls : ∀ l ∈ ls, w.store.KnownAt l ∧ isOperand w.store strict l = true)
    {a : Effect S.State S.Val S.Val} (ha : S.Denotes w.store left a)
    (hassigns : ∀ t ∈ ls.map w.store.tree, t.assignsTargets = true) :
    S.Denotes (ls.foldl append (left, w)).2.store (ls.foldl append (left, w)).1
      (((ls.map w.store.tree).map S.evaluate).foldl Effect.next a) := by
  induction ls generalizing w left a with
  | nil => exact ha
  | cons l rest ih =>
    obtain ⟨⟨hl, hlop⟩, hrest⟩ := List.forall_mem_cons.mp hls
    obtain ⟨hlassigns, hrassigns⟩ := List.forall_mem_cons.mp hassigns
    obtain ⟨hcomma, hcop⟩ := builds_comma hw hknown hl hleft hlop
    have htrees := trees_grow hcomma.grows hw.toCoherent hcomma.kept.toCoherent
      fun e he => (hrest e he).1
    have hstep := ih hcomma.kept hcomma.known hcop (operands_grow hcomma.grows hw hrest)
      (denotes_comma hw hcomma.kept (by simpa using ⟨hknown, hl⟩) ha ⟨rfl, hlassigns⟩)
      (by rw [htrees]; exact hrassigns)
    rw [htrees] at hstep
    exact hstep

/-- Joining evaluates one expression after the other. -/
theorem denotes_join (hw : w.Kept strict) {left right : Option Ref}
    (hleft : w.store.KnownAt left) (hright : w.store.KnownAt right)
    (hopl : isOperand w.store strict left = true) (hopr : isOperand w.store strict right = true)
    {a b : Effect S.State S.Val S.Val} (ha : S.Denotes w.store left a)
    (hb : S.Denotes w.store right b) :
    S.Denotes (join w left right).2.store (join w left right).1 (a.next b) := by
  have hexpands := expands_leaves w.store (w.store.cells.size + 1) right
  obtain ⟨hparts, _, _⟩ := hexpands.parts hw hright hopr
  have happend := denotes_append hw hleft hopl hparts ha
    (expands_assigns hw.acyclic hexpands hb.assigns)
  rw [expands_evaluate hw.acyclic hexpands, hb.evaluate] at happend
  exact happend

theorem denotes_joinAll (hw : w.Kept strict) {first : Option Ref} {others : List (Option Ref)}
    (hknown : w.store.KnownAt first) (hfirst : isOperand w.store strict first = true)
    (hothers : ∀ e ∈ others, w.store.KnownAt e ∧ isOperand w.store strict e = true)
    {a : Effect S.State S.Val S.Val} (ha : S.Denotes w.store first a)
    (hassigns : ∀ t ∈ others.map w.store.tree, t.assignsTargets = true) :
    S.Denotes (joinAll w first others).2.store (joinAll w first others).1
      (((others.map w.store.tree).map S.evaluate).foldl Effect.next a) := by
  induction others generalizing w first a with
  | nil => exact ha
  | cons e rest ih =>
    obtain ⟨⟨hek, heo⟩, hrest⟩ := List.forall_mem_cons.mp hothers
    obtain ⟨heassigns, hrassigns⟩ := List.forall_mem_cons.mp hassigns
    obtain ⟨hjoin, hjop⟩ := builds_join hw hknown hek hfirst heo
    have htrees := trees_grow hjoin.grows hw.toCoherent hjoin.kept.toCoherent
      fun x hx => (hrest x hx).1
    have hstep := ih hjoin.kept hjoin.known hjop (operands_grow hjoin.grows hw hrest)
      (denotes_join hw hknown hek hfirst heo ha ⟨rfl, heassigns⟩)
      (by rw [htrees]; exact hrassigns)
    rw [htrees] at hstep
    exact hstep

end Semantics

end ScriptSimplifier
