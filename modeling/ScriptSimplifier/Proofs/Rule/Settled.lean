import ScriptSimplifier.Proofs.Rule.Effects
import ScriptSimplifier.Proofs.Rule.NormalForm
import ScriptSimplifier.Proofs.Store.Fragments

/-!
# Settled elements

The normal form of an element is what some simplifications make of what stands below it, computed
over the store.  An element is *settled* if it has its normal form already.  Building something new
out of settled parts gives the normal form that the parts lead to: joining settled expressions by
commas is `Sketch.seq` (`normal_join`), and where operations are folded a settled element has the
value that its normal form shows (`Settled.value`).
-/

namespace ScriptSimplifier

namespace Sketch

theorem reduce_nil (label : Label) (children : List Sketch) :
    reduce [] label children = .node label children := by
  cases label <;> simp [reduce, reduce?]

theorem settle_nil (items : List Sketch) : settle [] items = items :=
  settle_of_no_list_rule (by simp) (by simp) (by simp) items

end Sketch

namespace Workspace

open Sequences

variable {strict : Strictness} {sims : List Simplification} {w w' : Workspace}

/-! ## Outcomes -/

/-- What an element comes to when its children are done. -/
def simplified (w : Workspace) (sims : List Simplification) (r : Ref) (children : List Sketch) :
    Sketch :=
  match w.pool.valueOf? r, w.store.get r with
  | some v, _ => .constant v
  | none, .node label _ => .reduce sims label children
  | none, .list _ => Sketch.list (Sketch.settle sims children)

/-- What simplifications make of the element at a place. -/
def normal (w : Workspace) (sims : List Simplification) (e : Option Ref) : Sketch :=
  w.store.fold .missing (w.simplified sims) e

/-- The element at a place as it is. -/
def sketch (w : Workspace) (e : Option Ref) : Sketch := w.normal [] e

/-- Nothing is left to simplify at and below a place. -/
def Settled (w : Workspace) (sims : List Simplification) (e : Option Ref) : Prop :=
  w.normal sims e = w.sketch e

@[simp] theorem normal_none : w.normal sims none = .missing := w.store.fold_none

theorem settled_none : w.Settled sims none := rfl

theorem normal_fragment (hs : w.store.Acyclic) {r : Ref} {v : Value}
    (h : w.pool.valueOf? r = some v) : w.normal sims (some r) = .constant v := by
  rw [normal, hs.fold_some, simplified, h]

theorem normal_node (hs : w.store.Acyclic) {r : Ref} {label : Label} {kids : List (Option Ref)}
    (hfree : w.pool.valueOf? r = none) (hr : w.store.get r = .node label kids) :
    w.normal sims (some r) = .reduce sims label (kids.map (w.normal sims)) := by
  rw [normal, hs.fold_some, simplified, hfree, hr, Store.below, hr]
  rfl

theorem normal_list (hs : w.store.Acyclic) {r : Ref} {items : List (Option Ref)}
    (hfree : w.pool.valueOf? r = none) (hr : w.store.get r = .list items) :
    w.normal sims (some r) = Sketch.list (Sketch.settle sims (items.map (w.normal sims))) := by
  rw [normal, hs.fold_some, simplified, hfree, hr, Store.below, hr]
  rfl

theorem sketch_node (hs : w.store.Acyclic) {r : Ref} {label : Label} {kids : List (Option Ref)}
    (hfree : w.pool.valueOf? r = none) (hr : w.store.get r = .node label kids) :
    w.sketch (some r) = .node label (kids.map w.sketch) := by
  rw [sketch, normal_node hs hfree hr, Sketch.reduce_nil]
  rfl

theorem sketch_list (hs : w.store.Acyclic) {r : Ref} {items : List (Option Ref)}
    (hfree : w.pool.valueOf? r = none) (hr : w.store.get r = .list items) :
    w.sketch (some r) = .list (items.map w.sketch) := by
  rw [sketch, normal_list hs hfree hr, Sketch.settle_nil]
  rfl

/-- Something is sketched as something. -/
theorem sketch_ne_missing (hs : w.store.Acyclic) (r : Ref) : w.sketch (some r) ≠ .missing := by
  cases hvalue : w.pool.valueOf? r with
  | some v => simp [sketch, normal_fragment hs hvalue]
  | none =>
    cases hr : w.store.get r with
    | node label kids => simp [sketch_node hs hvalue hr]
    | list items => simp [sketch_list hs hvalue hr]

/-- What is sketched as a node is one. -/
theorem sketch_eq_node (hs : w.store.Acyclic) {e : Option Ref} {label : Label}
    {children : List Sketch} (h : w.sketch e = .node label children) :
    ∃ r kids, e = some r ∧ w.pool.valueOf? r = none ∧ w.store.get r = .node label kids ∧
      children = kids.map w.sketch := by
  cases e with
  | none => simp [sketch] at h
  | some r =>
    cases hvalue : w.pool.valueOf? r with
    | some v => simp [sketch, normal_fragment hs hvalue] at h
    | none =>
      cases hr : w.store.get r with
      | list items => simp [sketch_list hs hvalue hr] at h
      | node label' kids =>
        rw [sketch_node hs hvalue hr] at h
        obtain ⟨rfl, rfl⟩ := Sketch.node.inj h
        exact ⟨r, kids, rfl, hvalue, hr, rfl⟩

theorem sketch_eq_list (hs : w.store.Acyclic) {e : Option Ref} {children : List Sketch}
    (h : w.sketch e = .list children) :
    ∃ r items, e = some r ∧ w.store.get r = .list items ∧ children = items.map w.sketch := by
  cases e with
  | none => simp [sketch] at h
  | some r =>
    cases hvalue : w.pool.valueOf? r with
    | some v => simp [sketch, normal_fragment hs hvalue] at h
    | none =>
      cases hr : w.store.get r with
      | node label kids => simp [sketch_node hs hvalue hr] at h
      | list items =>
        rw [sketch_list hs hvalue hr] at h
        exact ⟨r, items, rfl, hr, (Sketch.list.inj h).symm⟩

theorem sketch_eq_constant (hs : w.store.Acyclic) {e : Option Ref} {v : Value}
    (h : w.sketch e = .constant v) : ∃ r, e = some r ∧ w.pool.valueOf? r = some v := by
  cases e with
  | none => simp [sketch] at h
  | some r =>
    cases hvalue : w.pool.valueOf? r with
    | some u =>
      rw [sketch, normal_fragment hs hvalue] at h
      exact ⟨r, rfl, by rw [hvalue, Sketch.constant.inj h]⟩
    | none =>
      cases hr : w.store.get r with
      | node label kids => simp [sketch_node hs hvalue hr] at h
      | list items => simp [sketch_list hs hvalue hr] at h

theorem map_tree_eq {u : Workspace} (hu : u.store.Acyclic)
    {es fs : List (Option Ref)}
    (ih : ∀ c, some c ∈ es → ∀ e, w.sketch (some c) = u.sketch e →
      w.store.tree (some c) = u.store.tree e) (h : es.map w.sketch = fs.map u.sketch) :
    es.map w.store.tree = fs.map u.store.tree := by
  induction es generalizing fs with
  | nil =>
    obtain rfl : fs = [] := by simpa using h.symm
    rfl
  | cons e es ihes =>
    obtain ⟨f, fs, rfl, hf, hfs⟩ := List.map_eq_cons_iff.mp h.symm
    rw [List.map_cons, List.map_cons, ihes (fun c hc => ih c (List.mem_cons_of_mem _ hc)) hfs.symm]
    cases e with
    | some c => rw [ih c List.mem_cons_self f hf.symm]
    | none =>
      cases f with
      | none => rfl
      | some r => exact absurd hf (sketch_ne_missing hu r)

/-- Places with the same sketch have the same tree. -/
theorem tree_eq_of_sketch {u : Workspace} (hw : w.Kept strict) (hx : w.Exact) (hu : u.Kept strict)
    (hy : u.Exact) {r : Ref} {e : Option Ref} (h : w.sketch (some r) = u.sketch e) :
    w.store.tree (some r) = u.store.tree e := by
  induction r using hw.acyclic.induction generalizing e with
  | step r ih =>
    have hbelow : ∀ kids, w.store.below r = kids → ∀ c, some c ∈ kids → w.store.Holds r c := by
      rintro _ rfl c hc
      exact hc
    cases hvalue : w.pool.valueOf? r with
    | some v =>
      rw [sketch, normal_fragment hw.acyclic hvalue] at h
      obtain ⟨r', rfl, hvalue'⟩ := sketch_eq_constant hu.acyclic h.symm
      rw [hx.tree v r (Pool.valueOf?_eq_some hvalue), hy.tree v r' (Pool.valueOf?_eq_some hvalue')]
    | none =>
      cases hr : w.store.get r with
      | node label kids =>
        rw [sketch_node hw.acyclic hvalue hr] at h
        obtain ⟨r', kids', rfl, -, hr', hkids⟩ := sketch_eq_node hu.acyclic h.symm
        rw [hw.acyclic.tree_node hr, hu.acyclic.tree_node hr', map_tree_eq hu.acyclic
          (fun c hc e => ih c (hbelow kids (by rw [Store.below, hr]; rfl) c hc)) hkids]
      | list items =>
        rw [sketch_list hw.acyclic hvalue hr] at h
        obtain ⟨r', items', rfl, hr', hitems⟩ := sketch_eq_list hu.acyclic h.symm
        rw [hw.acyclic.tree_list hr, hu.acyclic.tree_list hr', map_tree_eq hu.acyclic
          (fun c hc e => ih c (hbelow items (by rw [Store.below, hr]; rfl) c hc)) hitems]

/-! ## Growing -/

theorem Grows.normal (h : w.Grows w') (hw : w.Kept strict) (hw' : w'.Kept strict)
    {e : Option Ref} (he : w.store.KnownAt e) : w'.normal sims e = w.normal sims e := by
  refine h.store.fold hw.acyclic hw.closed hw'.acyclic (fun r hr => ?_) he
  funext children
  rw [simplified, simplified, h.valueOf? hr, h.store.get r hr]

theorem Grows.settled (h : w.Grows w') (hw : w.Kept strict) (hw' : w'.Kept strict)
    {e : Option Ref} (he : w.store.KnownAt e) (hs : w.Settled sims e) : w'.Settled sims e := by
  rw [Settled, sketch, h.normal hw hw' he, h.normal hw hw' he]
  exact hs

/-! ## Elements that are no fragments -/

theorem Coherent.valueOf?_none (hw : w.Coherent strict) {r : Ref} {label : Label}
    {kids : List (Option Ref)} (hr : w.store.get r = .node label kids)
    (hspelling : ∀ v, ¬ Spelling w.pool.entries v label kids) : w.pool.valueOf? r = none := by
  cases hvalue : w.pool.valueOf? r with
  | none => rfl
  | some v =>
    obtain ⟨label', kids', hget, hs⟩ := hw.spelled v r (Pool.valueOf?_eq_some hvalue)
    obtain ⟨rfl, rfl⟩ := Cell.node.inj (hr.symm.trans hget)
    exact absurd hs (hspelling v)

/-- Nodes other than expressions are no fragments. -/
theorem Coherent.valueOf?_node (hw : w.Coherent strict) {r : Ref} {label : Label}
    {kids : List (Option Ref)} (hr : w.store.get r = .node label kids)
    (hkind : label.kind.isExpression = false) : w.pool.valueOf? r = none :=
  hw.valueOf?_none hr fun _ hs => by simp [hs.isExpression] at hkind

theorem Coherent.valueOf?_list (hw : w.Coherent strict) {r : Ref} {items : List (Option Ref)}
    (hr : w.store.get r = .list items) : w.pool.valueOf? r = none := by
  cases hvalue : w.pool.valueOf? r with
  | none => rfl
  | some v =>
    obtain ⟨label', kids', hget, -⟩ := hw.spelled v r (Pool.valueOf?_eq_some hvalue)
    simp [hr] at hget

theorem valueOf?_of_isConstant {r : Ref} (h : w.pool.isConstant (some r) = false) :
    w.pool.valueOf? r = none := by
  simpa [Pool.isConstant] using h

theorem isJump_node {s : Store} {r : Ref} {label : Label} {kids : List (Option Ref)}
    (hr : s.get r = .node label kids) (children : List Sketch) :
    isJump s (some r) = (Sketch.node label children).isJump := by
  simp only [isJump, Option.bind_some, Store.kind?_node hr, Sketch.isJump]
  cases label <;> rfl

/-! ## Comma expressions -/

section Leaves

variable {s : Store}

/-- If one more level makes a difference, there is a chain down to that level. -/
theorem leaves_ne {depth : Nat} {r : Ref}
    (h : leaves s depth (some r) ≠ leaves s (depth + 1) (some r)) :
    ∃ l, l.length = depth ∧ (r :: l).IsChain s.Holds := by
  induction depth generalizing r with
  | zero => exact ⟨[], rfl, List.isChain_singleton r⟩
  | succ depth ih =>
    have hnone : ∀ d, leaves s d none = [none] := fun d => by cases d <;> rfl
    rw [leaves, leaves] at h
    split at h
    · rename_i operator left right hr
      split at h
      · -- one of the operands makes the difference
        have hside : ∃ c, some c ∈ [left, right] ∧
            leaves s depth (some c) ≠ leaves s (depth + 1) (some c) := by
          by_contra hall
          push Not at hall
          have hsame : ∀ e ∈ [left, right], leaves s depth e = leaves s (depth + 1) e := by
            rintro (_ | c) hc
            · rw [hnone, hnone]
            · exact hall c hc
          exact h (by rw [hsame left (by simp), hsame right (by simp)])
        obtain ⟨c, hc, hne⟩ := hside
        obtain ⟨l, hlength, hchain⟩ := ih hne
        have hholds : s.Holds r c := by
          rw [Store.Holds, Store.below, Option.some.inj hr]
          exact hc
        exact ⟨c :: l, by simp [hlength], List.isChain_cons_cons.mpr ⟨hholds, hchain⟩⟩
      · exact absurd rfl h
    · exact absurd rfl h

theorem leavesOf_comma (hs : s.Acyclic) {r : Ref} {left right : Option Ref}
    (hr : s.get r = .node (.binaryExpression comma) [left, right]) :
    leavesOf s (some r) = leavesOf s left ++ leavesOf s right := by
  have hsame : leaves s (s.cells.size + 1) (some r) = leaves s (s.cells.size + 2) (some r) := by
    by_contra hne
    obtain ⟨l, hlength, hchain⟩ := leaves_ne hne
    have := hs.chain_length hchain
    omega
  rw [leavesOf, hsame, leaves, Option.map_some, hr]
  exact if_pos rfl

theorem leavesOf_leaf {e : Option Ref}
    (h : ∀ r left right, e = some r → s.get r ≠ .node (.binaryExpression comma) [left, right]) :
    leavesOf s e = [e] := by
  rw [leavesOf, leaves]
  split
  · rename_i operator left right hr
    split
    · rename_i hcomma
      obtain ⟨r, rfl, hget⟩ := Option.map_eq_some_iff.mp hr
      exact absurd (hcomma ▸ hget) (h r left right rfl)
    · rfl
  · rfl

end Leaves

/-- A comma expression is no fragment. -/
theorem Coherent.valueOf?_comma (hw : w.Coherent strict) {r : Ref} {kids : List (Option Ref)}
    (hr : w.store.get r = .node (.binaryExpression comma) kids) : w.pool.valueOf? r = none := by
  refine hw.valueOf?_none hr fun v hs => ?_
  cases hs with
  | literal hv => simp [Label.value?] at hv
  | binary _ _ hv => simp [evalBinary?_comma] at hv

theorem Coherent.normal_comma (hw : w.Coherent strict) {r : Ref} {left right : Option Ref}
    (hr : w.store.get r = .node (.binaryExpression comma) [left, right]) :
    w.normal sims (some r) = .comma (w.normal sims left) (w.normal sims right) := by
  rw [normal_node hw.acyclic (hw.valueOf?_comma hr) hr]
  exact Sketch.reduce_comma _ _

/-- The leaves of a settled expression. -/
theorem Settled.leaves (hw : w.Coherent strict) {e : Option Ref} (he : w.Settled sims e) :
    (leavesOf w.store e).map (w.normal sims) = (w.normal sims e).leaves := by
  cases e with
  | none =>
    rw [leavesOf_leaf (by simp)]
    simp [Sketch.leaves]
  | some r =>
    induction r using hw.acyclic.induction with
    | step r ih =>
      by_cases hr : ∃ left right, w.store.get r = .node (.binaryExpression comma) [left, right]
      · obtain ⟨left, right, hr⟩ := hr
        rw [Settled, sketch, hw.normal_comma hr, hw.normal_comma hr] at he
        obtain ⟨-, hkids⟩ := Sketch.node.inj he
        obtain ⟨hleft, hkids⟩ := List.cons.inj hkids
        obtain ⟨hright, -⟩ := List.cons.inj hkids
        -- the operands of a settled comma are settled, and the induction goes down to them
        have hside : ∀ e ∈ [left, right], w.Settled sims e →
            (leavesOf w.store e).map (w.normal sims) = (w.normal sims e).leaves := by
          rintro (_ | c) hc hsettled
          · rw [leavesOf_leaf (by simp)]
            simp [Sketch.leaves]
          · refine ih c ?_ hsettled
            rw [Store.Holds, Store.below, hr]
            exact hc
        rw [leavesOf_comma hw.acyclic hr, List.map_append, hside left (by simp) hleft,
          hside right (by simp) hright, hw.normal_comma hr, Sketch.leaves_comma]
      · push Not at hr
        -- what is not a comma is its own leaf, and being settled it does not become one either
        have hleaf : leavesOf w.store (some r) = [some r] := by
          refine leavesOf_leaf fun r' left right hr' => ?_
          obtain rfl := Option.some.inj hr'
          exact hr left right
        rw [hleaf, List.map_singleton, Sketch.leaves_eq_self]
        intro left right hcomma
        rw [he] at hcomma
        obtain ⟨r', kids, hr', -, hget, hkids⟩ := sketch_eq_node hw.acyclic hcomma
        obtain rfl := Option.some.inj hr'
        obtain ⟨a, rest, rfl, -, hrest⟩ := List.map_eq_cons_iff.mp hkids.symm
        obtain ⟨b, rfl, -⟩ := List.map_eq_singleton_iff.mp hrest
        exact hr a b hget

/-! ## New expressions and statements -/

/-- An operand that is known. -/
def IsOperandOf (strict : Strictness) (w : Workspace) (e : Option Ref) : Prop :=
  w.store.KnownAt e ∧ isOperand w.store strict e = true

theorem normal_append (hw : w.Kept strict) {left : Option Ref} {ls : List (Option Ref)}
    (hleft : w.IsOperandOf strict left) (hls : ∀ l ∈ ls, w.IsOperandOf strict l) :
    (ls.foldl append (left, w)).2.normal sims (ls.foldl append (left, w)).1 =
      (ls.map (w.normal sims)).foldl .comma (w.normal sims left) := by
  induction ls generalizing w left with
  | nil => rfl
  | cons l rest ih =>
    obtain ⟨hl, hrest⟩ := List.forall_mem_cons.mp hls
    obtain ⟨hbuilds, hop⟩ := builds_comma hw hleft.1 hl.1 hleft.2 hl.2
    have hnew : (w.push (.node (.binaryExpression comma) [left, l])).normal sims
        (some w.store.next) = .comma (w.normal sims left) (w.normal sims l) := by
      rw [hbuilds.kept.normal_comma (w.store.get_push_next _),
        hbuilds.grows.normal hw hbuilds.kept hleft.1, hbuilds.grows.normal hw hbuilds.kept hl.1]
    have hsame : rest.map ((w.push (.node (.binaryExpression comma) [left, l])).normal sims) =
        rest.map (w.normal sims) :=
      List.map_congr_left fun e he => hbuilds.grows.normal hw hbuilds.kept (hrest e he).1
    rw [List.foldl_cons, append, ih hbuilds.kept ⟨hbuilds.known, hop⟩
      (operands_grow hbuilds.grows hw hrest), List.map_cons, List.foldl_cons, hnew, hsame]

theorem normal_join (hw : w.Kept strict) {left right : Option Ref}
    (hleft : w.IsOperandOf strict left) (hright : w.IsOperandOf strict right)
    (hsettled : w.Settled sims right) :
    (join w left right).2.normal sims (join w left right).1 =
      .seq (w.normal sims left) (w.normal sims right) := by
  obtain ⟨hparts, -, -⟩ :=
    (expands_leaves w.store (w.store.cells.size + 1) right).parts hw hright.1 hright.2
  rw [← leavesOf] at hparts
  rw [join_eq, normal_append hw hleft hparts, hsettled.leaves hw.toCoherent]
  rfl

theorem normal_joinAll (hw : w.Kept strict) {first : Option Ref} {others : List (Option Ref)}
    (hfirst : w.IsOperandOf strict first)
    (hothers : ∀ e ∈ others, w.IsOperandOf strict e ∧ w.Settled sims e) :
    (joinAll w first others).2.normal sims (joinAll w first others).1 =
      (others.map (w.normal sims)).foldl .seq (w.normal sims first) := by
  induction others generalizing w first with
  | nil => rfl
  | cons e rest ih =>
    obtain ⟨⟨he, hsettled⟩, hrest⟩ := List.forall_mem_cons.mp hothers
    obtain ⟨hbuilds, hop⟩ := builds_join hw hfirst.1 he.1 hfirst.2 he.2
    have hgrown : ∀ x ∈ rest, (join w first e).2.IsOperandOf strict x ∧
        (join w first e).2.Settled sims x := by
      intro x hx
      obtain ⟨hx, hxsettled⟩ := hrest x hx
      have hoperand := operands_grow hbuilds.grows hw (List.forall_mem_singleton.mpr hx)
      exact ⟨hoperand x List.mem_cons_self,
        hbuilds.grows.settled hw hbuilds.kept hx.1 hxsettled⟩
    have hsame : rest.map ((join w first e).2.normal sims) = rest.map (w.normal sims) :=
      List.map_congr_left fun x hx => hbuilds.grows.normal hw hbuilds.kept (hrest x hx).1.1
    have hih := ih hbuilds.kept ⟨hbuilds.known, hop⟩ hgrown
    rw [hsame, normal_join hw hfirst he hsettled] at hih
    exact hih

/-- A statement that carries an expression. -/
theorem normal_carrier (hw : w.Coherent strict) {r : Ref} {label : Label}
    (hlabel : isCarrier label) {e : Option Ref} (hr : w.store.get r = .node label [e]) :
    w.normal sims (some r) = .node label [w.normal sims e] := by
  rw [normal_node hw.acyclic (hw.valueOf?_node hr hlabel.not_expression) hr]
  obtain rfl | rfl | rfl := hlabel <;> rfl

/-- A new statement that carries an expression. -/
theorem normal_add (hw : w.Kept strict) {label : Label} (hlabel : isCarrier label)
    {e : Option Ref} (he : w.IsOperandOf strict e) :
    (w.add label [e]).2.normal sims (some (w.add label [e]).1) =
      .node label [w.normal sims e] := by
  obtain ⟨hbuilds, -⟩ := builds_carrier hw hlabel (.refl hw he.1) he.2
  have hget : (w.add label [e]).2.store.get (w.add label [e]).1 = .node label [e] := by
    rw [add_own w [e] hlabel.isOwn]
    exact w.store.get_push_next _
  rw [normal_carrier hbuilds.kept.toCoherent hlabel hget,
    hbuilds.grows.normal hw hbuilds.kept he.1]

/-! ## Values -/

theorem Coherent.value_numeral (hw : w.Coherent strict) {r : Ref} {x : Double}
    {kids : List (Option Ref)} (hr : w.store.get r = .node (.numericLiteral x) kids) :
    (w.normal sims (some r)).value? = some (.number x) := by
  cases hvalue : w.pool.valueOf? r with
  | none =>
    rw [normal_node hw.acyclic hvalue hr]
    rfl
  | some v =>
    obtain ⟨label, kids', hget, hs⟩ := hw.spelled v r (Pool.valueOf?_eq_some hvalue)
    obtain ⟨rfl, rfl⟩ := Cell.node.inj (hr.symm.trans hget)
    cases hs with
    | literal hv =>
      rw [normal_fragment hw.acyclic hvalue]
      exact hv.symm

/-- A unary operation that is no fragment has a value only if it is the negation of a numeral. -/
theorem valueOf?_unary {r : Ref} {operator : Text} {kids : List (Option Ref)} {v : Value}
    (hfree : w.pool.valueOf? r = none)
    (hr : w.store.get r = .node (.unaryExpression operator) kids)
    (h : w.valueOf? (some r) = some v) :
    ∃ o x rest, kids = [some o] ∧ w.store.get o = .node (.numericLiteral x) rest ∧
      operator = Text.ofString "-" := by
  simp only [Workspace.valueOf?, Option.bind_eq_bind, Option.bind_some, hfree, hr] at h
  obtain _ | ⟨_ | o, _ | ⟨_, _⟩⟩ := kids
  case cons.some.nil =>
    dsimp only at h
    split at h
    · rename_i x rest ho
      split at h
      · rename_i hminus
        exact ⟨o, x, rest, rfl, ho, hminus⟩
      · cases h
    · cases h
  all_goals cases h

/-- Where operations are folded, a settled element has the value that it shows. -/
theorem Settled.value (hw : w.Coherent strict)
    (hfold : .foldConstant ∈ sims ∨ .foldConditional ∈ sims) {e : Option Ref}
    (he : w.Settled sims e) : w.valueOf? e = (w.normal sims e).value? := by
  cases e with
  | none => rfl
  | some r =>
    cases hvalue : w.pool.valueOf? r with
    | some v =>
      rw [normal_fragment hw.acyclic hvalue]
      simp [Workspace.valueOf?, hvalue, Sketch.value?]
    | none =>
      cases hr : w.store.get r with
      | list items =>
        rw [normal_list hw.acyclic hvalue hr]
        simp [Workspace.valueOf?, hvalue, hr, Sketch.value?]
      | node label kids =>
        have hlabel : (w.normal sims (some r)).value? = label.value? := by
          rw [he, sketch_node hw.acyclic hvalue hr]
          rfl
        rw [hlabel]
        cases label
        case unaryExpression operator =>
          cases hfound : w.valueOf? (some r) with
          | none => rfl
          | some v =>
            -- the negation of a numeral would have been folded
            obtain ⟨o, x, rest, rfl, ho, rfl⟩ := valueOf?_unary hvalue hr hfound
            have hfolded : w.normal sims (some r) = .constant (.number x.neg) := by
              rw [normal_node hw.acyclic hvalue hr]
              simp [Sketch.reduce, Sketch.reduce?, hfold, Sketch.foldUnary?,
                hw.value_numeral ho, evalUnary?_minus]
            rw [Settled, hfolded, sketch_node hw.acyclic hvalue hr] at he
            cases he
        all_goals simp [Workspace.valueOf?, hvalue, hr, Label.value?]

end Workspace

end ScriptSimplifier
