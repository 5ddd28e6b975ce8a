import ScriptSimplifier.Proofs.Edits
import ScriptSimplifier.Proofs.Rule.Building
import ScriptSimplifier.Rule.Catalog

/-!
# What simplifications do

Every simplification replaces a node or rewrites the items of a list.  `NodeStep` and `ListStep` say
in which ways, once for all simplifications; `propose_cases` says that the catalog proposes nothing
else.  Whatever holds after any step is proved from these relations.
-/

namespace ScriptSimplifier

open Workspace

/-! ## Steps at a node -/

namespace Statements

/-- A statement with a conditional expression. -/
def conditionalStatement (w : Workspace) (label : Label) (test consequent alternate : Option Ref) :
    Ref × Workspace :=
  let (conditional, w) := w.add .conditionalExpression [test, consequent, alternate]
  w.add label [some conditional]

theorem putConditional_eq (place : Cursor) (w : Workspace) (label : Label)
    (test consequent alternate : Option Ref) :
    putConditional place w label test consequent alternate =
      (.put place (some (conditionalStatement w label test consequent alternate).1),
        (conditionalStatement w label test consequent alternate).2) := rfl

end Statements

open Statements

/-- By what a node may be replaced, and the workspace with the replacement. -/
inductive NodeStep (w : Workspace) : Ref → Option Ref → Workspace → Prop
  | emptied {r block list : Ref} :
      w.store.get r = .node .blockStatement [some block] →
      w.store.get block = .node .block [some list] → w.store.get list = .list [] →
      NodeStep w r (some .emptyStatement) w
  | unwrapped {r block list : Ref} {statement : Option Ref} :
      w.store.get r = .node .blockStatement [some block] →
      w.store.get block = .node .block [some list] → w.store.get list = .list [statement] →
      NodeStep w r statement w
  | returned {r c a : Ref} {test x y : Option Ref} :
      w.store.get r = .node .ifStatement [test, some c, some a] →
      w.store.get c = .node .returnStatement [x] → w.store.get a = .node .returnStatement [y] →
      NodeStep w r
        (some (conditionalStatement (orUndefined (orUndefined w x).2 y).2 .returnStatement test
          (orUndefined w x).1 (orUndefined (orUndefined w x).2 y).1).1)
        (conditionalStatement (orUndefined (orUndefined w x).2 y).2 .returnStatement test
          (orUndefined w x).1 (orUndefined (orUndefined w x).2 y).1).2
  | lowered {r c a : Ref} {test x y : Option Ref} {label : Label} :
      label = .throwStatement ∨ label = .expressionStatement →
      w.store.get r = .node .ifStatement [test, some c, some a] →
      w.store.get c = .node label [x] → w.store.get a = .node label [y] →
      NodeStep w r (some (conditionalStatement w label test x y).1)
        (conditionalStatement w label test x y).2
  | selected {r : Ref} {test c a : Option Ref} {v : Value} :
      w.store.get r = .node .conditionalExpression [test, c, a] → w.valueOf? test = some v →
      NodeStep w r (if v.toBoolean then c else a) w
  | unary {r : Ref} {operator : Text} {operand : Option Ref} {u v : Value} :
      w.store.get r = .node (.unaryExpression operator) [operand] →
      w.pool.isConstant (some r) = false → w.valueOf? operand = some u →
      evalUnary? operator u = some v → NodeStep w r (some (w.constant v).1) (w.constant v).2
  | binary {r : Ref} {operator : Text} {left right : Option Ref} {a b v : Value} :
      w.store.get r = .node (.binaryExpression operator) [left, right] →
      w.pool.isConstant (some r) = false → w.valueOf? left = some a → w.valueOf? right = some b →
      evalBinary? operator a b = some v → NodeStep w r (some (w.constant v).1) (w.constant v).2

theorem element_of_node? {s : Store} {c : Cursor} {r : Ref} (h : c.node? s = some r) :
    c.element = some r := by
  rw [Cursor.node?, Option.filter_eq_some_iff] at h
  exact h.1

variable {strict : Strictness} {w w' : Workspace} {place : Cursor} {edit : Edit}

/-- A block statement's block holds a list. -/
theorem block_list (ht : w.store.Typed strict) {r block : Ref}
    (hr : w.store.get r = .node .blockStatement [some block]) :
    ∃ list items, w.store.get block = .node .block [some list] ∧
      w.store.get list = .list items ∧
      w.store.itemsOf (w.store.child block "statements") = items := by
  obtain ⟨b, hb, hadmits⟩ := (ht r _ _ hr).one rfl
  obtain rfl : some block = b := by simpa using hb
  obtain ⟨r', label, kids, hr', hget, hkind⟩ : ∃ r label kids, some block = some r ∧
      w.store.get r = .node label kids ∧ Category.block.accepts label.kind = true := by
    rcases (Store.admits_single rfl).mp hadmits with ⟨hnone, _⟩ | hin
    · simp at hnone
    · exact Store.isIn_iff.mp hin
  obtain rfl := Option.some.inj hr'
  obtain rfl : label = .block := by
    cases label <;> first | rfl | simp [Category.accepts, Label.kind] at hkind
  obtain ⟨l, rfl, hlist⟩ := (ht block _ _ hget).one rfl
  obtain ⟨list, items, rfl, hitems, _⟩ := (Store.admits_list rfl).mp hlist
  have hchild : w.store.child block "statements" = some list :=
    Store.child_field hget (f := .list "statements" .statement) (i := 0) rfl
  exact ⟨list, items, hget, hitems, by simp [hchild, Store.itemsOf, Store.items?, hitems]⟩

theorem flattenBlock_step (ht : w.store.Typed strict)
    (h : flattenBlock place w = some (edit, w')) :
    ∃ r n, place.element = some r ∧ NodeStep w r n w' ∧ edit = .put place n := by
  rw [flattenBlock] at h
  obtain ⟨r, hr, h⟩ := Option.bind_eq_some_iff.mp h
  refine ⟨r, ?_⟩
  split at h
  · rename_i block hget
    obtain ⟨list, items, hblock, hitems, hitemsOf⟩ := block_list ht hget
    rw [hitemsOf] at h
    split at h
    · obtain ⟨rfl, rfl⟩ := Prod.mk.inj (Option.some.inj h)
      exact ⟨_, element_of_node? hr, .emptied hget hblock hitems, rfl⟩
    · obtain ⟨rfl, rfl⟩ := Prod.mk.inj (Option.some.inj h)
      exact ⟨_, element_of_node? hr, .unwrapped hget hblock hitems, rfl⟩
    · simp at h
  · simp at h

theorem lowerIf_step (h : lowerIf place w = some (edit, w')) :
    ∃ r n, place.element = some r ∧ NodeStep w r n w' ∧ edit = .put place n := by
  rw [lowerIf] at h
  obtain ⟨r, hr, h⟩ := Option.bind_eq_some_iff.mp h
  refine ⟨r, ?_⟩
  split at h
  · rename_i test c a hget
    split at h
    · rename_i x y hc ha
      split at h
      · simp at h
      · dsimp only at h
        rw [putConditional_eq] at h
        obtain ⟨rfl, rfl⟩ := Prod.mk.inj (Option.some.inj h)
        exact ⟨_, element_of_node? hr, .returned hget hc ha, rfl⟩
    · rename_i x y hc ha
      rw [putConditional_eq] at h
      obtain ⟨rfl, rfl⟩ := Prod.mk.inj (Option.some.inj h)
      exact ⟨_, element_of_node? hr, .lowered (.inl rfl) hget hc ha, rfl⟩
    · rename_i x y hc ha
      rw [putConditional_eq] at h
      obtain ⟨rfl, rfl⟩ := Prod.mk.inj (Option.some.inj h)
      exact ⟨_, element_of_node? hr, .lowered (.inr rfl) hget hc ha, rfl⟩
    · simp at h
  · simp at h

open Folding

theorem foldUnary_step {r : Ref} {operator : Text} {operand : Option Ref}
    (hr : w.store.get r = .node (.unaryExpression operator) [operand])
    (hfree : w.pool.isConstant (some r) = false)
    (h : foldUnary place w operator operand = some (edit, w')) :
    ∃ n, NodeStep w r n w' ∧ edit = .put place n := by
  obtain ⟨u, hu, h⟩ := Option.bind_eq_some_iff.mp h
  obtain ⟨v, hv, h⟩ := Option.bind_eq_some_iff.mp h
  obtain ⟨rfl, rfl⟩ := Prod.mk.inj (Option.some.inj h)
  exact ⟨_, .unary hr hfree hu hv, rfl⟩

theorem foldOperation_step (h : foldOperation place w = some (edit, w')) :
    ∃ r n, place.element = some r ∧ NodeStep w r n w' ∧ edit = .put place n := by
  rw [foldOperation] at h
  obtain ⟨r, hr, h⟩ := Option.bind_eq_some_iff.mp h
  refine ⟨r, ?_⟩
  split at h
  · simp at h
  · rename_i hfree
    split at h
    · rename_i operator left right hget
      obtain ⟨a, ha, h⟩ := Option.bind_eq_some_iff.mp h
      obtain ⟨b, hb, h⟩ := Option.bind_eq_some_iff.mp h
      obtain ⟨v, hv, h⟩ := Option.bind_eq_some_iff.mp h
      obtain ⟨rfl, rfl⟩ := Prod.mk.inj (Option.some.inj h)
      exact ⟨_, element_of_node? hr, .binary hget (by simpa using hfree) ha hb hv, rfl⟩
    · rename_i operator operand hget
      obtain ⟨n, hstep, hedit⟩ := foldUnary_step hget (by simpa using hfree) h
      exact ⟨n, element_of_node? hr, hstep, hedit⟩
    · simp at h

theorem foldConditional_step (h : foldConditional place w = some (edit, w')) :
    ∃ r n, place.element = some r ∧ NodeStep w r n w' ∧ edit = .put place n := by
  rw [foldConditional] at h
  obtain ⟨r, hr, h⟩ := Option.bind_eq_some_iff.mp h
  refine ⟨r, ?_⟩
  split at h
  · rename_i test c a hget
    obtain ⟨v, hv, h⟩ := Option.bind_eq_some_iff.mp h
    obtain ⟨rfl, rfl⟩ := Prod.mk.inj (Option.some.inj h)
    exact ⟨_, element_of_node? hr, .selected hget hv, rfl⟩
  · rename_i operator operand hget
    split at h
    · simp at h
    · rename_i hfree
      obtain ⟨n, hstep, hedit⟩ := foldUnary_step hget (by simpa using hfree) h
      exact ⟨n, element_of_node? hr, hstep, hedit⟩
  · simp at h

end ScriptSimplifier
