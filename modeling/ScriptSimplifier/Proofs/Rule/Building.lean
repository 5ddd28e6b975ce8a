import ScriptSimplifier.Proofs.Store.Constants
import ScriptSimplifier.Rule.Sequences

/-!
# Building new elements

Rules build what they put in place out of parts of the tree, fragments and new nodes.  `Builds`
says what matters about such a piece: the workspace only grew, the piece uses each of its parts
once and otherwise only new cells, and it costs at most a given number more than its parts.  The
cost of an element is the number of nodes and list items below it, without the shared ones.
-/

namespace ScriptSimplifier

/-- What an element counts by itself: a node one, a list the number of its items. -/
def Store.weight (s : Store) (r : Ref) : Nat :=
  match s.get r with
  | .node _ _ => 1
  | .list items => items.length

namespace Workspace

/-! ## Census and cost -/

/-- The elements at and below a place that are not shared. -/
def census (w : Workspace) (e : Option Ref) : Multiset Ref := w.store.census w.shares e

/-- The elements at and below places that are not shared. -/
def censusAll (w : Workspace) (es : List (Option Ref)) : Multiset Ref :=
  w.store.censusAll w.shares es

/-- The number of nodes and list items at and below a place, without those that are shared. -/
def cost (w : Workspace) (e : Option Ref) : Nat := w.store.tally w.shares w.store.weight e

/-- The cost of places. -/
def costAll (w : Workspace) (es : List (Option Ref)) : Nat :=
  w.store.tallyAll w.shares w.store.weight es

section Basics

variable (w : Workspace) (e : Option Ref) (es fs : List (Option Ref))

@[simp] theorem census_none : w.census none = 0 := w.store.census_none
@[simp] theorem censusAll_nil : w.censusAll [] = 0 := rfl
@[simp] theorem censusAll_cons : w.censusAll (e :: es) = w.census e + w.censusAll es :=
  w.store.censusAll_cons e es
@[simp] theorem censusAll_append : w.censusAll (es ++ fs) = w.censusAll es + w.censusAll fs :=
  w.store.censusAll_append es fs
@[simp] theorem cost_none : w.cost none = 0 := w.store.tally_none
@[simp] theorem costAll_nil : w.costAll [] = 0 := rfl
@[simp] theorem costAll_cons : w.costAll (e :: es) = w.cost e + w.costAll es :=
  w.store.tallyAll_cons e es
@[simp] theorem costAll_append : w.costAll (es ++ fs) = w.costAll es + w.costAll fs :=
  w.store.tallyAll_append es fs

end Basics

variable {strict : Strictness} {w w' w'' : Workspace}

theorem Coherent.census_shared (hw : w.Coherent strict) {r : Ref} (hr : w.shares r = true) :
    w.census (some r) = 0 := Store.census_shared hw.acyclic hr

theorem Coherent.cost_shared (hw : w.Coherent strict) {r : Ref} (hr : w.shares r = true) :
    w.cost (some r) = 0 := Store.tally_shared hw.acyclic hr

theorem Coherent.census_own (hw : w.Coherent strict) {r : Ref} (hr : w.shares r = false) :
    w.census (some r) = r ::ₘ w.censusAll (w.store.below r) := Store.census_own hw.acyclic hr

theorem Coherent.cost_own (hw : w.Coherent strict) {r : Ref} (hr : w.shares r = false) :
    w.cost (some r) = w.store.weight r + w.costAll (w.store.below r) :=
  Store.tally_own hw.acyclic hr

theorem Grows.census (h : w.Grows w') (hw : w.Coherent strict) (hw' : w'.Coherent strict)
    {e : Option Ref} (he : w.store.KnownAt e) : w'.census e = w.census e :=
  h.store.tally hw.acyclic hw.closed hw'.acyclic (fun _ hr => h.shares hr) (fun _ _ => rfl) he

theorem Grows.cost (h : w.Grows w') (hw : w.Coherent strict) (hw' : w'.Coherent strict)
    {e : Option Ref} (he : w.store.KnownAt e) : w'.cost e = w.cost e := by
  refine h.store.tally hw.acyclic hw.closed hw'.acyclic (fun _ hr => h.shares hr) ?_ he
  intro r hr
  rw [Store.weight, h.store.get r hr, Store.weight]

theorem Grows.censusAll (h : w.Grows w') (hw : w.Coherent strict) (hw' : w'.Coherent strict)
    {es : List (Option Ref)} (hes : ∀ e ∈ es, w.store.KnownAt e) :
    w'.censusAll es = w.censusAll es := by
  induction es with
  | nil => rfl
  | cons e es ih =>
    rw [censusAll_cons, censusAll_cons, h.census hw hw' (hes e List.mem_cons_self),
      ih fun e' he' => hes e' (List.mem_cons_of_mem _ he')]

theorem Grows.costAll (h : w.Grows w') (hw : w.Coherent strict) (hw' : w'.Coherent strict)
    {es : List (Option Ref)} (hes : ∀ e ∈ es, w.store.KnownAt e) :
    w'.costAll es = w.costAll es := by
  induction es with
  | nil => rfl
  | cons e es ih =>
    rw [costAll_cons, costAll_cons, h.cost hw hw' (hes e List.mem_cons_self),
      ih fun e' he' => hes e' (List.mem_cons_of_mem _ he')]

/-- A new cell is not shared. -/
theorem Coherent.next_own (hw : w.Coherent strict) (c : Cell) :
    (w.push c).shares w.store.next = false := by
  have hconstant : (w.push c).pool.isConstant (some w.store.next) = false := by
    by_contra hnext
    obtain ⟨v, hv⟩ := Pool.isConstant_iff.mp (by simpa using hnext)
    exact w.store.next_unknown (hw.known v _ hv)
  simp only [shares, hconstant, Bool.or_false]
  rfl

/-! ## Pieces -/

/-- A piece that is built out of parts, at an extra cost. -/
structure Builds (strict : Strictness) (w w' : Workspace) (parts : List (Option Ref)) (extra : Nat)
    (e : Option Ref) : Prop where
  grows : w.Grows w'
  kept : w'.Kept strict
  known : w'.store.KnownAt e
  census : w'.census e ≤ w.censusAll parts + w.store.since w'.store
  cost : w'.cost e ≤ w.costAll parts + extra

theorem Builds.refl (hw : w.Kept strict) {e : Option Ref} (he : w.store.KnownAt e) :
    Builds strict w w [e] 0 e :=
  ⟨.refl w, hw, he, by simp, by simp⟩

/-- A new node is built out of its children. -/
theorem Builds.push (hw : w.Kept strict) {label : Label} {kids : List (Option Ref)}
    (htyped : w.store.NodeTyped strict label kids) (hknown : ∀ e ∈ kids, w.store.KnownAt e) :
    Builds strict w (w.push (.node label kids)) kids 1 (some w.store.next) := by
  have hpush := hw.push htyped hknown
  have hgrows := w.grows_push (.node label kids)
  have hown := hw.next_own (.node label kids)
  have hget : (w.push (.node label kids)).store.get w.store.next = .node label kids :=
    w.store.get_push_next _
  have hbelow : (w.push (.node label kids)).store.below w.store.next = kids := by
    rw [Store.below, hget]
    rfl
  have hcensus := hgrows.censusAll hw.toCoherent hpush.toCoherent hknown
  have hcost := hgrows.costAll hw.toCoherent hpush.toCoherent hknown
  refine ⟨hgrows, hpush, Store.knownAt_some.mpr (w.store.next_known _), ?_, ?_⟩
  · have hsince : w.store.since (w.push (.node label kids)).store = {w.store.next} :=
      w.store.since_push _
    rw [hpush.census_own hown, hbelow, hcensus, hsince, ← Multiset.singleton_add, add_comm]
  · rw [hpush.cost_own hown, hbelow, hcost, Store.weight, hget, Nat.add_comm]

/-- A fragment is built out of nothing and costs nothing. -/
theorem Builds.constant (hw : w.Kept strict) (v : Value) :
    Builds strict w (w.constant v).2 [] 0 (some (w.constant v).1) := by
  obtain ⟨hgrows, hkept, hmem⟩ := hw.constant v
  have hshared : (w.constant v).2.shares (w.constant v).1 = true := by
    simp [shares, Pool.isConstant_iff.mpr ⟨v, hmem⟩]
  refine ⟨hgrows, hkept, Store.knownAt_some.mpr (hkept.known v _ hmem), ?_, ?_⟩
  · rw [hkept.census_shared hshared]
    exact Multiset.zero_le _
  · rw [hkept.cost_shared hshared]
    exact Nat.zero_le _

/-- A piece that is built out of another piece and further parts. -/
theorem Builds.trans (hw : w.Kept strict) {parts rest : List (Option Ref)} {k k' : Nat}
    {e e' : Option Ref} (h : Builds strict w w' parts k e)
    (h' : Builds strict w' w'' (e :: rest) k' e') (hrest : ∀ x ∈ rest, w.store.KnownAt x) :
    Builds strict w w'' (parts ++ rest) (k + k') e' := by
  have hcensus := h.grows.censusAll hw.toCoherent h.kept.toCoherent hrest
  have hcost := h.grows.costAll hw.toCoherent h.kept.toCoherent hrest
  refine ⟨h.grows.trans h'.grows, h'.kept, h'.known, ?_, ?_⟩
  · calc w''.census e' ≤ w'.census e + w'.censusAll rest + w'.store.since w''.store := by
          simpa using h'.census
      _ ≤ w.censusAll parts + w.store.since w'.store + w.censusAll rest +
            w'.store.since w''.store := by
          rw [hcensus]
          exact add_le_add_left (add_le_add_left h.census _) _
      _ = w.censusAll (parts ++ rest) + w.store.since w''.store := by
          rw [censusAll_append, ← Store.since_add h.grows.store.size h'.grows.store.size]
          ac_rfl
  · have hcost' := h'.cost
    have hcost'' := h.cost
    rw [costAll_cons, hcost] at hcost'
    rw [costAll_append]
    omega

/-- Parts that contribute no more may stand for others. -/
theorem Builds.of_parts {parts parts' : List (Option Ref)} {k k' : Nat} {e : Option Ref}
    (h : Builds strict w w' parts k e) (hcensus : w.censusAll parts ≤ w.censusAll parts')
    (hcost : w.costAll parts + k ≤ w.costAll parts' + k') :
    Builds strict w w' parts' k' e :=
  ⟨h.grows, h.kept, h.known, h.census.trans (add_le_add_left hcensus _), h.cost.trans hcost⟩

/-! ## Elements that are not shared -/

/-- Nodes that spell no value are not shared. -/
theorem Coherent.own_of_operation (hw : w.Coherent strict) {r : Ref} {label : Label}
    {kids : List (Option Ref)} (hr : w.store.get r = .node label kids)
    (hempty : label ≠ .emptyStatement)
    (hspelling : ∀ v, ¬ Spelling w.pool.entries v label kids) : w.shares r = false := by
  have hne : r ≠ .emptyStatement := by
    rintro rfl
    exact hempty (Cell.node.inj hr).1.symm
  have hconstant : w.pool.isConstant (some r) = false := by
    by_contra hc
    obtain ⟨v, hv⟩ := Pool.isConstant_iff.mp (by simpa using hc)
    obtain ⟨label', kids', hget, hspelled⟩ := hw.spelled v r hv
    obtain ⟨rfl, rfl⟩ := Cell.node.inj (hr.symm.trans hget)
    exact hspelling v hspelled
  simp [shares, hne, hconstant]

/-- Nodes other than expressions and the empty statement are not shared. -/
theorem Coherent.own_of_node (hw : w.Coherent strict) {r : Ref} {label : Label}
    {kids : List (Option Ref)} (hr : w.store.get r = .node label kids)
    (hempty : label ≠ .emptyStatement) (hkind : label.kind.isExpression = false) :
    w.shares r = false := by
  refine hw.own_of_operation hr hempty fun v hspelling => ?_
  rw [hspelling.isExpression] at hkind
  simp at hkind

theorem Coherent.own_of_list (hw : w.Coherent strict) {r : Ref} {items : List (Option Ref)}
    (hr : w.store.get r = .list items) : w.shares r = false := by
  have hne : r ≠ .emptyStatement := by
    rintro rfl
    cases hr
  have hconstant : w.pool.isConstant (some r) = false := by
    by_contra hc
    obtain ⟨v, hv⟩ := Pool.isConstant_iff.mp (by simpa using hc)
    obtain ⟨label, kids, hget, _⟩ := hw.spelled v r hv
    cases hr.symm.trans hget
  simp [shares, hne, hconstant]

end Workspace

namespace Sequences

open Workspace

/-! ## Comma expressions -/

theorem evalBinary?_comma (l r : Value) : evalBinary? comma l r = none := by
  have hop : BinaryOp.ofSpelling? comma = none := by decide
  simp [evalBinary?, hop]

/-- An expression and expressions that stand for it when they are joined by commas. -/
inductive Expands (s : Store) : Option Ref → List (Option Ref) → Prop
  | leaf (e : Option Ref) : Expands s e [e]
  | comma {r : Ref} {left right : Option Ref} {ls rs : List (Option Ref)} :
      s.get r = .node (.binaryExpression comma) [left, right] → Expands s left ls →
      Expands s right rs → Expands s (some r) (ls ++ rs)

theorem expands_leaves (s : Store) (depth : Nat) (e : Option Ref) :
    Expands s e (leaves s depth e) := by
  induction depth generalizing e with
  | zero => exact .leaf e
  | succ depth ih =>
    rw [leaves]
    split
    · rename_i operator left right hget
      split
      · rename_i hcomma
        subst hcomma
        cases e with
        | none => simp at hget
        | some r => exact .comma (by simpa using hget) (ih left) (ih right)
      · exact .leaf e
    · exact .leaf e

variable {strict : Strictness} {w : Workspace}

/-- Whether a place holds an expression, or nothing where that is allowed. -/
def isOperand (s : Store) (strict : Strictness) (e : Option Ref) : Bool :=
  s.admits strict (.single "" .expression) e

theorem comma_typed {s : Store} {left right : Option Ref} :
    s.NodeTyped strict (.binaryExpression comma) [left, right] ↔
      isOperand s strict left = true ∧ isOperand s strict right = true := by
  constructor
  · intro h
    obtain ⟨a, b, hkids, ha, hb⟩ := h.two rfl
    obtain ⟨rfl, rfl⟩ : left = a ∧ right = b := by simpa using hkids
    exact ⟨ha, hb⟩
  · rintro ⟨hl, hr⟩
    refine ⟨fun _ => rfl, rfl, ?_⟩
    intro p hp
    rcases (by simpa [Label.fields, Label.kind, Kind.fields] using hp :
      p = (Field.single "left" .expression, left) ∨
        p = (Field.single "right" .expression, right)) with rfl | rfl
    · exact hl
    · exact hr

/-- Each part of an expansion is used once, and between the parts stand commas. -/
theorem Expands.parts {e : Option Ref} {ls : List (Option Ref)} (h : Expands w.store e ls)
    (hw : w.Kept strict) (he : w.store.KnownAt e) (hop : isOperand w.store strict e = true) :
    (∀ l ∈ ls, w.store.KnownAt l ∧ isOperand w.store strict l = true) ∧
      w.censusAll ls ≤ w.census e ∧ w.costAll ls + ls.length ≤ w.cost e + 1 := by
  induction h with
  | leaf e =>
    refine ⟨?_, by simp, by simp⟩
    intro l hl
    obtain rfl : l = e := by simpa using hl
    exact ⟨he, hop⟩
  | @comma r left right ls rs hget _ _ ihl ihr =>
    have hbelow : w.store.below r = [left, right] := by rw [Store.below, hget]; rfl
    -- no fragment is a comma, so the operands are not shared on account of it
    have hown : w.shares r = false := by
      refine hw.own_of_operation hget (by simp) fun v hspelling => ?_
      cases hspelling with
      | binary _ _ hv => simp [evalBinary?_comma] at hv
    obtain ⟨hl, hr⟩ := comma_typed.mp (hw.typed r _ _ hget)
    obtain ⟨hknownl, hcensusl, hcostl⟩ :=
      ihl (hw.closed.knownAt (r := r) (by simp [hbelow])) hl
    obtain ⟨hknownr, hcensusr, hcostr⟩ :=
      ihr (hw.closed.knownAt (r := r) (by simp [hbelow])) hr
    refine ⟨?_, ?_, ?_⟩
    · intro l hmem
      rcases List.mem_append.mp hmem with hmem | hmem
      · exact hknownl l hmem
      · exact hknownr l hmem
    · rw [hw.census_own hown, hbelow, censusAll_append, ← Multiset.singleton_add]
      simp only [censusAll_cons, censusAll_nil, add_zero]
      exact (add_le_add hcensusl hcensusr).trans (Multiset.le_add_left _ _)
    · have hweight : w.store.weight r = 1 := by simp [Store.weight, hget]
      rw [hw.cost_own hown, hbelow, hweight, costAll_append, List.length_append]
      simp only [costAll_cons, costAll_nil]
      omega

/-- Joins one more expression by a comma. -/
def append (p : Option Ref × Workspace) (leaf : Option Ref) : Option Ref × Workspace :=
  (some p.2.store.next, p.2.push (.node (.binaryExpression comma) [p.1, leaf]))

theorem join_eq (w : Workspace) (left right : Option Ref) :
    join w left right = (leavesOf w.store right).foldl append (left, w) := rfl

@[simp] theorem pool_append (ls : List (Option Ref)) (p : Option Ref × Workspace) :
    (ls.foldl append p).2.pool = p.2.pool := by
  induction ls generalizing p with
  | nil => rfl
  | cons l ls ih =>
    rw [List.foldl_cons, ih]
    rfl

@[simp] theorem pool_join (w : Workspace) (left right : Option Ref) :
    (join w left right).2.pool = w.pool := by
  rw [join_eq, pool_append]

@[simp] theorem pool_joinAll (w : Workspace) (first : Option Ref) (others : List (Option Ref)) :
    (joinAll w first others).2.pool = w.pool := by
  induction others generalizing w first with
  | nil => rfl
  | cons e others ih =>
    refine (ih (join w first e).2 (join w first e).1).trans ?_
    exact pool_join w first e

/-- Operands stay operands when the workspace grows. -/
theorem operands_grow {w' : Workspace} (h : w.Grows w') (hw : w.Kept strict)
    {es : List (Option Ref)}
    (hes : ∀ e ∈ es, w.store.KnownAt e ∧ isOperand w.store strict e = true) :
    ∀ e ∈ es, w'.store.KnownAt e ∧ isOperand w'.store strict e = true := by
  intro e he
  obtain ⟨hknown, hop⟩ := hes e he
  refine ⟨h.store.knownAt hknown, ?_⟩
  rw [isOperand, h.store.admits hw.closed hknown]
  exact hop

theorem builds_comma (hw : w.Kept strict) {left right : Option Ref}
    (hleft : w.store.KnownAt left) (hright : w.store.KnownAt right)
    (hopl : isOperand w.store strict left = true) (hopr : isOperand w.store strict right = true) :
    Builds strict w (w.push (.node (.binaryExpression comma) [left, right])) [left, right] 1
        (some w.store.next) ∧
      isOperand (w.push (.node (.binaryExpression comma) [left, right])).store strict
        (some w.store.next) = true := by
  refine ⟨Builds.push hw (comma_typed.mpr ⟨hopl, hopr⟩) (by simpa using ⟨hleft, hright⟩), ?_⟩
  simp [isOperand, Store.admits, push, Field.single, Category.accepts, Label.kind,
    Kind.isExpression]

theorem builds_append (hw : w.Kept strict) {left : Option Ref} {ls : List (Option Ref)}
    (hknown : w.store.KnownAt left) (hleft : isOperand w.store strict left = true)
    (hls : ∀ l ∈ ls, w.store.KnownAt l ∧ isOperand w.store strict l = true) :
    Builds strict w (ls.foldl append (left, w)).2 (left :: ls) ls.length
        (ls.foldl append (left, w)).1 ∧
      isOperand (ls.foldl append (left, w)).2.store strict
        (ls.foldl append (left, w)).1 = true := by
  induction ls generalizing w left with
  | nil => exact ⟨.refl hw hknown, hleft⟩
  | cons l rest ih =>
    obtain ⟨⟨hl, hlop⟩, hrest⟩ := List.forall_mem_cons.mp hls
    obtain ⟨hcomma, hcop⟩ := builds_comma hw hknown hl hleft hlop
    obtain ⟨hbuilds, hop⟩ := ih hcomma.kept hcomma.known hcop (operands_grow hcomma.grows hw hrest)
    refine ⟨?_, hop⟩
    have htrans := hcomma.trans hw hbuilds fun x hx => (hrest x hx).1
    rw [Nat.add_comm] at htrans
    exact htrans

theorem builds_join (hw : w.Kept strict) {left right : Option Ref}
    (hleft : w.store.KnownAt left) (hright : w.store.KnownAt right)
    (hopl : isOperand w.store strict left = true) (hopr : isOperand w.store strict right = true) :
    Builds strict w (join w left right).2 [left, right] 1 (join w left right).1 ∧
      isOperand (join w left right).2.store strict (join w left right).1 = true := by
  obtain ⟨hparts, hcensus, hcost⟩ :=
    (expands_leaves w.store (w.store.cells.size + 1) right).parts hw hright hopr
  rw [join_eq]
  obtain ⟨hbuilds, hop⟩ := builds_append hw hleft hopl hparts
  refine ⟨hbuilds.of_parts ?_ ?_, hop⟩
  · simpa using hcensus
  · simp only [costAll_cons, costAll_nil]
    omega

theorem builds_joinAll (hw : w.Kept strict) {first : Option Ref} {others : List (Option Ref)}
    (hknown : w.store.KnownAt first) (hfirst : isOperand w.store strict first = true)
    (hothers : ∀ e ∈ others, w.store.KnownAt e ∧ isOperand w.store strict e = true) :
    Builds strict w (joinAll w first others).2 (first :: others) others.length
        (joinAll w first others).1 ∧
      isOperand (joinAll w first others).2.store strict (joinAll w first others).1 = true := by
  induction others generalizing w first with
  | nil => exact ⟨.refl hw hknown, hfirst⟩
  | cons e rest ih =>
    obtain ⟨⟨hek, heo⟩, hrest⟩ := List.forall_mem_cons.mp hothers
    obtain ⟨hjoin, hjop⟩ := builds_join hw hknown hek hfirst heo
    obtain ⟨hbuilds, hop⟩ := ih hjoin.kept hjoin.known hjop (operands_grow hjoin.grows hw hrest)
    refine ⟨?_, hop⟩
    have htrans := hjoin.trans hw hbuilds fun x hx => (hrest x hx).1
    rw [Nat.add_comm] at htrans
    exact htrans

end Sequences

end ScriptSimplifier
