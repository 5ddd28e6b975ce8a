import ScriptSimplifier.Proofs.Rule.ListSteps
import ScriptSimplifier.Proofs.Rule.Steps

/-!
# Effects of steps

Whatever a step puts in place, it uses every element of what it replaces at most once and otherwise
only new cells and shared elements, it costs less, and it belongs to the same category
(`NodeStep.effect`, `ListStep.effect`).  These facts are all that the rest of the development needs
to know about the catalog, apart from what the steps mean.
-/

namespace ScriptSimplifier

open Workspace Sequences Statements

variable {strict : Strictness} {w w' : Workspace}

/-! ## Parts of an element -/

theorem censusAll_of_mem {e : Option Ref} {es : List (Option Ref)} (h : e ∈ es) :
    w.census e ≤ w.censusAll es ∧ w.cost e ≤ w.costAll es := by
  induction es with
  | nil => simp at h
  | cons x rest ih =>
    rw [censusAll_cons, costAll_cons]
    rcases List.mem_cons.mp h with rfl | h
    · exact ⟨Multiset.le_add_right _ _, Nat.le_add_right _ _⟩
    · obtain ⟨hcensus, hcost⟩ := ih h
      exact ⟨hcensus.trans (Multiset.le_add_left _ _), hcost.trans (Nat.le_add_left _ _)⟩

/-- What an element of its own holds is a part of it. -/
theorem below_le (hw : w.Coherent strict) {r : Ref} (hown : w.shares r = false) :
    w.censusAll (w.store.below r) ≤ w.census (some r) ∧
      w.costAll (w.store.below r) + w.store.weight r ≤ w.cost (some r) := by
  rw [hw.census_own hown, hw.cost_own hown]
  exact ⟨Multiset.le_cons_self _ _, by omega⟩

/-- The children of a node that is not shared are parts of it, and the node counts one more. -/
theorem node_le (hw : w.Coherent strict) {r : Ref} {label : Label} {kids : List (Option Ref)}
    (hr : w.store.get r = .node label kids) (hown : w.shares r = false) :
    w.censusAll kids ≤ w.census (some r) ∧ w.costAll kids + 1 ≤ w.cost (some r) := by
  have hbelow : w.store.below r = kids := by rw [Store.below, hr]; rfl
  have hweight : w.store.weight r = 1 := by rw [Store.weight, hr]
  have h := below_le hw hown
  rwa [hbelow, hweight] at h

/-- The items of a list are parts of it. -/
theorem list_le (hw : w.Coherent strict) {r : Ref} {items : List (Option Ref)}
    (hr : w.store.get r = .list items) :
    w.censusAll items ≤ w.census (some r) ∧ w.costAll items ≤ w.cost (some r) := by
  have hbelow : w.store.below r = items := by rw [Store.below, hr]; rfl
  obtain ⟨hcensus, hcost⟩ := below_le hw (hw.own_of_list hr)
  rw [hbelow] at hcensus hcost
  exact ⟨hcensus, by omega⟩

theorem knownAt_of_node (hw : w.Coherent strict) {r : Ref} {label : Label}
    {kids : List (Option Ref)} (hr : w.store.get r = .node label kids) :
    ∀ e ∈ kids, w.store.KnownAt e := by
  intro e he
  refine hw.closed.knownAt (r := r) ?_
  rw [Store.below, hr]
  exact he

/-! ## Statements with a conditional expression -/

/-- A place that holds an expression. -/
theorem isOperand_of_isIn {s : Store} {e : Option Ref} (h : s.isIn .expression e = true) :
    isOperand s strict e = true :=
  (Store.admits_single rfl).mpr (.inr h)

/-- The labels of statements that hold one expression. -/
def isCarrier (label : Label) : Prop :=
  label = .returnStatement ∨ label = .throwStatement ∨ label = .expressionStatement

theorem isCarrier.isOwn {label : Label} (h : isCarrier label) : label.IsOwn := by
  rcases h with rfl | rfl | rfl <;> exact ⟨by simp, by simp⟩

theorem isCarrier.not_expression {label : Label} (h : isCarrier label) :
    label.kind.isExpression = false := by
  rcases h with rfl | rfl | rfl <;> rfl

theorem isCarrier.isStatement {label : Label} (h : isCarrier label) :
    Category.statement.accepts label.kind = true := by
  rcases h with rfl | rfl | rfl <;> rfl

/-- A statement may carry any expression. -/
theorem carrier_typed {s : Store} {label : Label} (h : isCarrier label) {e : Option Ref}
    (he : isOperand s strict e = true) : s.NodeTyped strict label [e] := by
  have hmaybe : s.admits strict (.maybe "expression" .expression) e = true := by
    rcases (Store.admits_single rfl).mp he with ⟨rfl, _⟩ | hin
    · exact (Store.admits_single rfl).mpr (.inl ⟨rfl, fun _ => rfl⟩)
    · exact (Store.admits_single rfl).mpr (.inr hin)
  have hsingle : s.admits strict (.single "expression" .expression) e = true := he
  rcases h with rfl | rfl | rfl
  · exact ⟨fun _ => rfl, rfl, by simpa [Label.fields, Label.kind, Kind.fields] using hmaybe⟩
  · exact ⟨fun _ => rfl, rfl, by simpa [Label.fields, Label.kind, Kind.fields] using hsingle⟩
  · exact ⟨fun _ => rfl, rfl, by simpa [Label.fields, Label.kind, Kind.fields] using hsingle⟩

/-- A throw or expression statement carries an operand. -/
theorem isOperand_of_carrier {s : Store} (ht : s.Typed strict) {r : Ref} {label : Label}
    {e : Option Ref} (hlabel : label = .throwStatement ∨ label = .expressionStatement)
    (hr : s.get r = .node label [e]) : isOperand s strict e = true := by
  rcases hlabel with rfl | rfl
  all_goals
    obtain ⟨e', he, hadmits⟩ := (ht r _ _ hr).one rfl
    obtain rfl : e = e' := by simpa using he
    exact hadmits

/-- What a return carries is nothing or an expression. -/
theorem isIn_of_return {s : Store} (ht : s.Typed strict) {r x : Ref}
    (hr : s.get r = .node .returnStatement [some x]) : s.isIn .expression (some x) = true := by
  obtain ⟨e', he, hadmits⟩ := (ht r _ _ hr).one rfl
  obtain rfl : some x = e' := by simpa using he
  rcases (Store.admits_single rfl).mp hadmits with ⟨hnone, _⟩ | hin
  · simp at hnone
  · exact hin

theorem isIn_node {s : Store} {r : Ref} {label : Label} {kids : List (Option Ref)}
    (hr : s.get r = .node label kids) {category : Category}
    (h : category.accepts label.kind = true) : s.isIn category (some r) = true :=
  Store.isIn_iff.mpr ⟨r, label, kids, rfl, hr, h⟩

/-- A statement with a new expression. -/
theorem builds_carrier (hw : w.Kept strict) {w₁ : Workspace} {label : Label}
    (hlabel : isCarrier label) {parts : List (Option Ref)} {k : Nat} {e : Option Ref}
    (h : Builds strict w w₁ parts k e) (he : isOperand w₁.store strict e = true) :
    Builds strict w (w₁.add label [e]).2 parts (k + 1) (some (w₁.add label [e]).1) ∧
      (w₁.add label [e]).2.store.isIn .statement (some (w₁.add label [e]).1) = true := by
  have hpush := Builds.push h.kept (carrier_typed hlabel he) (by simpa using h.known)
  rw [add_own w₁ [e] hlabel.isOwn]
  refine ⟨?_, isIn_node (Store.get_push_next _ _) hlabel.isStatement⟩
  have htrans := h.trans hw hpush (by simp)
  rwa [List.append_nil] at htrans

theorem builds_conditional (hw : w.Kept strict) {test c a : Option Ref}
    (hparts : ∀ e ∈ [test, c, a], w.store.KnownAt e ∧ isOperand w.store strict e = true) :
    Builds strict w (w.push (.node .conditionalExpression [test, c, a])) [test, c, a] 1
        (some w.store.next) ∧
      isOperand (w.push (.node .conditionalExpression [test, c, a])).store strict
        (some w.store.next) = true := by
  have htyped : w.store.NodeTyped strict .conditionalExpression [test, c, a] := by
    refine ⟨fun _ => rfl, rfl, ?_⟩
    intro p hp
    rcases (by simpa [Label.fields, Label.kind, Kind.fields] using hp :
      p = (Field.single "test" .expression, test) ∨
        p = (Field.single "consequent" .expression, c) ∨
        p = (Field.single "alternate" .expression, a)) with rfl | rfl | rfl
    · exact (hparts test (by simp)).2
    · exact (hparts c (by simp)).2
    · exact (hparts a (by simp)).2
  refine ⟨Builds.push hw htyped fun e he => (hparts e he).1, ?_⟩
  simp [isOperand, Store.admits, push, Field.single, Category.accepts, Label.kind,
    Kind.isExpression]

theorem conditionalStatement_eq (w : Workspace) (label : Label) (test c a : Option Ref) :
    conditionalStatement w label test c a =
      (w.push (.node .conditionalExpression [test, c, a])).add label [some w.store.next] := by
  have hown : Label.conditionalExpression.IsOwn := ⟨by simp, by simp⟩
  rw [conditionalStatement, add_own w _ hown]

theorem builds_orUndefined (hw : w.Kept strict) {e : Option Ref} (he : w.store.KnownAt e)
    (hin : ∀ x, e = some x → w.store.isIn .expression e = true) :
    Builds strict w (orUndefined w e).2 [e] 0 (orUndefined w e).1 ∧
      isOperand (orUndefined w e).2.store strict (orUndefined w e).1 = true := by
  cases e with
  | some x => exact ⟨.refl hw he, isOperand_of_isIn (hin x rfl)⟩
  | none =>
    have hconstant := Builds.constant hw .undefined
    obtain ⟨_, hkept, hmem⟩ := hw.constant .undefined
    exact ⟨hconstant.of_parts (by simp) (by simp), isOperand_of_isIn (hkept.isIn_constant hmem)⟩

/-- What two returns carry, with `undefined` where they carry nothing. -/
theorem builds_returned (hw : w.Kept strict) {c a : Ref} {x y : Option Ref}
    (hc : w.store.get c = .node .returnStatement [x])
    (ha : w.store.get a = .node .returnStatement [y]) :
    Builds strict w (orUndefined w x).2 [x] 0 (orUndefined w x).1 ∧
      Builds strict (orUndefined w x).2 (orUndefined (orUndefined w x).2 y).2 [y] 0
        (orUndefined (orUndefined w x).2 y).1 ∧
      isOperand (orUndefined (orUndefined w x).2 y).2.store strict (orUndefined w x).1 = true ∧
      isOperand (orUndefined (orUndefined w x).2 y).2.store strict
        (orUndefined (orUndefined w x).2 y).1 = true := by
  have hx := builds_orUndefined hw (knownAt_of_node hw.toCoherent hc x (by simp))
    (by rintro x rfl; exact isIn_of_return hw.typed hc)
  have hyknown := knownAt_of_node hw.toCoherent ha y (by simp)
  have hy := builds_orUndefined hx.1.kept (hx.1.grows.store.knownAt hyknown) (by
    rintro z rfl
    rw [hx.1.grows.store.isIn hyknown]
    exact isIn_of_return hw.typed ha)
  refine ⟨hx.1, hy.1, ?_, hy.2⟩
  rw [isOperand, hy.1.grows.store.admits hx.1.kept.closed hx.1.known]
  exact hx.2

/-! ## Steps at a node -/

/-- The kinds of nodes that are replaced. -/
def Kind.isReplaceable : Kind → Bool
  | .blockStatement | .ifStatement | .unaryExpression | .binaryExpression
  | .conditionalExpression => true
  | _ => false

/-- What replacing a node by another element comes to. -/
structure Replaces (strict : Strictness) (w w' : Workspace) (r : Ref) (n : Option Ref) : Prop where
  builds : Builds strict w w' [some r] 0 n
  cheaper : w'.cost n < w.cost (some r)
  own : w.shares r = false
  kind : ∃ kind, w.store.kind? r = some kind ∧ kind.isReplaceable = true
  category : ∀ category, w.store.isIn category (some r) = true →
    (n = none ∧ strict.complete = false) ∨ w'.store.isIn category n = true

/-- The category of a node with a known label. -/
theorem category_eq {s : Store} {r : Ref} {label : Label} {kids : List (Option Ref)}
    (hr : s.get r = .node label kids) {category other : Category}
    (h : s.isIn category (some r) = true) (hother : other.accepts label.kind = true) :
    category = other := by
  obtain ⟨r', label', kids', hr', hget, haccepts⟩ := Store.isIn_iff.mp h
  obtain rfl := Option.some.inj hr'
  obtain ⟨rfl, rfl⟩ := Cell.node.inj (hr.symm.trans hget)
  exact Category.eq_of_accepts haccepts hother

/-- A node of a replaceable kind belongs to a category. -/
theorem Kind.exists_category {kind : Kind} (h : kind.isReplaceable = true) :
    ∃ category : Category, category.accepts kind = true := by
  cases kind <;>
    first | exact ⟨.statement, rfl⟩ | exact ⟨.expression, rfl⟩ | simp [Kind.isReplaceable] at h

/-- Nodes are replaced, and by nodes. -/
theorem Replaces.isNode {r n : Ref} (h : Replaces strict w w' r (some n)) :
    w.store.isList r = false ∧ w'.store.isList n = false := by
  obtain ⟨kind, hkind, hreplaceable⟩ := h.kind
  obtain ⟨category, haccepts⟩ := Kind.exists_category hreplaceable
  have hr : w.store.isIn category (some r) = true := by simp [Store.isIn, hkind, haccepts]
  obtain ⟨r', label, kids, hr', hget, _⟩ := Store.isIn_iff.mp hr
  obtain rfl := Option.some.inj hr'
  refine ⟨by simp [Store.isList, hget], ?_⟩
  rcases h.category category hr with ⟨hnone, _⟩ | hn
  · simp at hnone
  · obtain ⟨n', label', kids', hn', hget', _⟩ := Store.isIn_iff.mp hn
    obtain rfl := Option.some.inj hn'
    simp [Store.isList, hget']

/-- A replacement that is a part of what it replaces, below other nodes. -/
theorem replaces_part (hw : w.Kept strict) {r : Ref} {label : Label} {kids : List (Option Ref)}
    {n : Option Ref} (hr : w.store.get r = .node label kids)
    (hkind : label.kind.isReplaceable = true) (hown : w.shares r = false)
    (hknown : w.store.KnownAt n) (hcensus : w.census n ≤ w.censusAll kids)
    (hcost : w.cost n ≤ w.costAll kids)
    (hcategory : ∀ category, w.store.isIn category (some r) = true →
      (n = none ∧ strict.complete = false) ∨ w.store.isIn category n = true) :
    Replaces strict w w r n := by
  obtain ⟨hcensus', hcost'⟩ := node_le hw.toCoherent hr hown
  refine ⟨(Builds.refl hw hknown).of_parts ?_ ?_, by omega, hown,
    ⟨label.kind, Store.kind?_node hr, hkind⟩, hcategory⟩
  · simpa using hcensus.trans hcensus'
  · simp only [costAll_cons, costAll_nil]
    omega

/-- A replacement by the fragment of a value. -/
theorem replaces_constant (hw : w.Kept strict) {r : Ref} {label : Label}
    {kids : List (Option Ref)} (v : Value) (hr : w.store.get r = .node label kids)
    (hkind : label.kind.isReplaceable = true) (hexpression : label.kind.isExpression = true)
    (hfree : w.pool.isConstant (some r) = false) :
    Replaces strict w (w.constant v).2 r (some (w.constant v).1) := by
  have hne : r ≠ .emptyStatement := by
    rintro rfl
    rw [← (Cell.node.inj hr).1] at hexpression
    simp [Label.kind, Kind.isExpression] at hexpression
  have hown : w.shares r = false := by simp [shares, hne, hfree]
  have hbuilds := Builds.constant hw v
  obtain ⟨_, hkept, hmem⟩ := hw.constant v
  obtain ⟨_, hcost⟩ := node_le hw.toCoherent hr hown
  have hfree' := hbuilds.cost
  rw [costAll_nil] at hfree'
  refine ⟨hbuilds.of_parts (Multiset.zero_le _) (by simp), by omega, hown,
    ⟨label.kind, Store.kind?_node hr, hkind⟩, fun category hin => .inr ?_⟩
  have haccepts : Category.expression.accepts label.kind = true := hexpression
  obtain rfl := category_eq hr hin haccepts
  exact hkept.isIn_constant hmem

/-- What an if statement and its branches carry may stand in a conditional expression. -/
theorem conditional_parts (hw : w.Kept strict) (hgrows : w.Grows w') {r : Ref}
    {test c a x y : Option Ref} (hr : w.store.get r = .node .ifStatement [test, c, a])
    (hx : w'.store.KnownAt x ∧ isOperand w'.store strict x = true)
    (hy : w'.store.KnownAt y ∧ isOperand w'.store strict y = true) :
    ∀ e ∈ [test, x, y], w'.store.KnownAt e ∧ isOperand w'.store strict e = true := by
  have htest : ∀ e ∈ [test], w.store.KnownAt e ∧ isOperand w.store strict e = true := by
    obtain ⟨t, _, _, hkids, hadmits, _⟩ := (hw.typed r _ _ hr).three rfl
    obtain ⟨rfl, _⟩ : test = t ∧ _ := by simpa using hkids
    rw [List.forall_mem_singleton]
    exact ⟨knownAt_of_node hw.toCoherent hr test (by simp), hadmits⟩
  refine List.forall_mem_cons.mpr ⟨?_, by simpa using ⟨hx, hy⟩⟩
  exact operands_grow hgrows hw htest test List.mem_cons_self

/-- Replacing an if statement by a statement with a conditional expression. -/
theorem replaces_conditional (hw : w.Kept strict) {r c a : Ref} {test x y x' y' : Option Ref}
    {label : Label} {w₁ : Workspace} (hlabel : isCarrier label)
    (hr : w.store.get r = .node .ifStatement [test, some c, some a])
    (hc : w.store.get c = .node label [x]) (ha : w.store.get a = .node label [y])
    (hx : Builds strict w w₁ [x] 0 x') (hy : Builds strict w₁ w' [y] 0 y')
    (hx' : isOperand w'.store strict x' = true) (hy' : isOperand w'.store strict y' = true) :
    Replaces strict w (conditionalStatement w' label test x' y').2 r
      (some (conditionalStatement w' label test x' y').1) := by
  have hgrows := hx.grows.trans hy.grows
  have hrown := hw.own_of_node hr (by simp) rfl
  have hcown := hw.own_of_node hc hlabel.isOwn.1 hlabel.not_expression
  have haown := hw.own_of_node ha hlabel.isOwn.1 hlabel.not_expression
  have htest : w.store.KnownAt test := knownAt_of_node hw.toCoherent hr test (by simp)
  have hyknown : w.store.KnownAt y := knownAt_of_node hw.toCoherent ha y (by simp)
  have hparts := conditional_parts hw hgrows hr ⟨hy.grows.store.knownAt hx.known, hx'⟩
    ⟨hy.known, hy'⟩
  obtain ⟨hconditional, hcop⟩ := builds_conditional hy.kept hparts
  obtain ⟨hstatement, hin⟩ := builds_carrier hy.kept hlabel hconditional hcop
  rw [← conditionalStatement_eq] at hstatement hin
  -- the statement is built out of the test and the two expressions, one after the other
  have hlast : Builds strict w' _ (y' :: [x', test]) 2 _ :=
    hstatement.of_parts (le_of_eq (by simp only [censusAll_cons, censusAll_nil]; ac_rfl))
      (by simp only [costAll_cons, costAll_nil]; omega)
  have hmiddle : Builds strict w₁ _ (x' :: [y, test]) 2 _ :=
    (hy.trans hx.kept hlast (by simpa using ⟨hx.known, hx.grows.store.knownAt htest⟩)).of_parts
      (le_of_eq (by simp only [censusAll_cons, censusAll_append, censusAll_nil]; ac_rfl))
      (by simp only [costAll_cons, costAll_append, costAll_nil]; omega)
  have hall := hx.trans hw hmiddle (by simpa using ⟨hyknown, htest⟩)
  obtain ⟨hrcensus, hrcost⟩ := node_le hw.toCoherent hr hrown
  obtain ⟨hccensus, hccost⟩ := node_le hw.toCoherent hc hcown
  obtain ⟨hacensus, hacost⟩ := node_le hw.toCoherent ha haown
  have hcost := hall.cost
  simp only [censusAll_cons, censusAll_nil, costAll_cons, costAll_nil, List.cons_append,
    List.nil_append, add_zero] at hrcensus hrcost hccensus hccost hacensus hacost hcost
  refine ⟨hall.of_parts ?_ ?_, by omega, hrown, ⟨_, Store.kind?_node hr, rfl⟩, ?_⟩
  · simp only [censusAll_cons, censusAll_nil, List.cons_append, List.nil_append, add_zero]
    calc w.census x + (w.census y + w.census test)
        = w.census test + (w.census x + w.census y) := by ac_rfl
      _ ≤ w.census test + (w.census (some c) + w.census (some a)) :=
          add_le_add_right (add_le_add hccensus hacensus) _
      _ ≤ w.census (some r) := hrcensus
  · simp only [costAll_cons, costAll_nil, List.cons_append, List.nil_append]
    omega
  · intro category hcategory
    have haccepts : Category.statement.accepts (Label.ifStatement).kind = true := rfl
    obtain rfl := category_eq hr hcategory haccepts
    exact .inr hin

/-- What every step at a node comes to. -/
theorem NodeStep.effect (hw : w.Kept strict) {r : Ref} {n : Option Ref}
    (h : NodeStep w r n w') : Replaces strict w w' r n := by
  cases h with
  | @emptied block list hr hblock hlist =>
    have hown := hw.own_of_node hr (by simp) rfl
    have hempty : w.shares .emptyStatement = true := rfl
    refine replaces_part hw hr rfl hown (Store.knownAt_some.mpr trivial) ?_ ?_ ?_
    · rw [hw.census_shared hempty]
      exact Multiset.zero_le _
    · rw [hw.cost_shared hempty]
      exact Nat.zero_le _
    · intro category hin
      have haccepts : Category.statement.accepts (Label.blockStatement).kind = true := rfl
      obtain rfl := category_eq hr hin haccepts
      exact .inr rfl
  | @unwrapped block list _ hr hblock hlist =>
    have hown := hw.own_of_node hr (by simp) rfl
    have hbown := hw.own_of_node hblock (by simp) rfl
    obtain ⟨hbcensus, hbcost⟩ := node_le hw.toCoherent hblock hbown
    obtain ⟨hlcensus, hlcost⟩ := list_le hw.toCoherent hlist
    simp only [censusAll_cons, censusAll_nil, costAll_cons, costAll_nil, add_zero]
      at hbcensus hbcost hlcensus hlcost
    refine replaces_part hw hr rfl hown ?_ ?_ ?_ ?_
    · refine hw.closed.knownAt (r := list) ?_
      rw [Store.below, hlist]
      exact List.mem_cons_self
    · simpa using hlcensus.trans hbcensus
    · simp only [costAll_cons, costAll_nil]
      omega
    · intro category hin
      have haccepts : Category.statement.accepts (Label.blockStatement).kind = true := rfl
      obtain rfl := category_eq hr hin haccepts
      obtain ⟨l, hl, hadmits⟩ := (hw.typed block _ _ hblock).one rfl
      obtain rfl : some list = l := by simpa using hl
      obtain ⟨l', items, hl', hitems, hall⟩ := (Store.admits_list rfl).mp hadmits
      obtain rfl := Option.some.inj hl'
      obtain rfl := Cell.list.inj (hlist.symm.trans hitems)
      exact .inr (hall _ List.mem_cons_self)
  | @returned c a test x y hr hc ha =>
    obtain ⟨hx, hy, hxop, hyop⟩ := builds_returned hw hc ha
    exact replaces_conditional hw (.inl rfl) hr hc ha hx hy hxop hyop
  | @lowered c a test x y label hlabel hr hc ha =>
    refine replaces_conditional hw (.inr hlabel) hr hc ha
      (.refl hw (knownAt_of_node hw.toCoherent hc x (by simp)))
      (.refl hw (knownAt_of_node hw.toCoherent ha y (by simp)))
      (isOperand_of_carrier hw.typed hlabel hc) (isOperand_of_carrier hw.typed hlabel ha)
  | @selected test c a v hr hv =>
    have hown : w.shares r = false := by
      refine hw.own_of_operation hr (by simp) fun v hspelling => ?_
      cases hspelling
    -- either branch is a part of the node
    have hmem : (if v.toBoolean then c else a) ∈ [test, c, a] := by
      split <;> simp
    obtain ⟨hcensus, hcost⟩ := censusAll_of_mem (w := w) hmem
    refine replaces_part hw hr rfl hown (knownAt_of_node hw.toCoherent hr _ hmem) hcensus hcost ?_
    intro category hin
    have haccepts : Category.expression.accepts (Label.conditionalExpression).kind = true := rfl
    obtain rfl := category_eq hr hin haccepts
    obtain ⟨_, _, _, hkids, _, hc, ha⟩ := (hw.typed r _ _ hr).three rfl
    obtain ⟨rfl, rfl, rfl⟩ : test = _ ∧ c = _ ∧ a = _ := by simpa using hkids
    split
    · exact ((Store.admits_single rfl).mp hc).imp_left fun hempty =>
        ⟨hempty.1, by simpa [Field.single] using hempty.2⟩
    · exact ((Store.admits_single rfl).mp ha).imp_left fun hempty =>
        ⟨hempty.1, by simpa [Field.single] using hempty.2⟩
  | unary hr hfree _ _ => exact replaces_constant hw _ hr rfl rfl hfree
  | binary hr hfree _ _ _ => exact replaces_constant hw _ hr rfl rfl hfree

/-! ## Steps of a list -/

/-- What rewriting the items of a list comes to. -/
structure Trims (strict : Strictness) (w w' : Workspace) (items items' : List (Option Ref)) :
    Prop where
  grows : w.Grows w'
  kept : w'.Kept strict
  known : ∀ e ∈ items', w'.store.KnownAt e
  census : w'.censusAll items' ≤ w.censusAll items + w.store.since w'.store
  cost : w'.costAll items' ≤ w.costAll items
  length : items'.length ≤ items.length
  category : ∀ category, (∀ e ∈ items, w.store.isIn category e = true) →
    ∀ e ∈ items', w'.store.isIn category e = true

theorem Trims.nil (hw : w.Kept strict) : Trims strict w w [] [] :=
  ⟨.refl w, hw, by simp, by simp, by simp, by simp, by simp⟩

/-- Some items are replaced by one statement, and then the rest is rewritten. -/
theorem Trims.cons (hw : w.Kept strict) {w₁ : Workspace} {chunk rest rest' : List (Option Ref)}
    {n : Option Ref} (hn : Builds strict w w₁ chunk 0 n) (hchunk : chunk ≠ [])
    (hcategory : ∀ category, (∀ e ∈ chunk, w.store.isIn category e = true) →
      w₁.store.isIn category n = true)
    (hrest : ∀ e ∈ rest, w.store.KnownAt e) (h : Trims strict w₁ w' rest rest') :
    Trims strict w w' (chunk ++ rest) (n :: rest') := by
  have hncensus := h.grows.census hn.kept.toCoherent h.kept.toCoherent hn.known
  have hncost := h.grows.cost hn.kept.toCoherent h.kept.toCoherent hn.known
  have hrcensus := hn.grows.censusAll hw.toCoherent hn.kept.toCoherent hrest
  have hrcost := hn.grows.costAll hw.toCoherent hn.kept.toCoherent hrest
  have hcost := h.cost
  have hcost' := hn.cost
  have hlength := h.length
  have hchunk' := List.length_pos_iff.mpr hchunk
  refine ⟨hn.grows.trans h.grows, h.kept, ?_, ?_, ?_, ?_, ?_⟩
  · exact List.forall_mem_cons.mpr ⟨h.grows.store.knownAt hn.known, h.known⟩
  · rw [censusAll_cons, hncensus, censusAll_append,
      ← Store.since_add hn.grows.store.size h.grows.store.size]
    -- what the head may need and what the rest may need are apart, with what was added for each
    calc w₁.census n + w'.censusAll rest'
        ≤ w.censusAll chunk + w.store.since w₁.store +
            (w.censusAll rest + w₁.store.since w'.store) := by
          rw [← hrcensus]
          exact add_le_add hn.census h.census
      _ = w.censusAll chunk + w.censusAll rest +
            (w.store.since w₁.store + w₁.store.since w'.store) := by ac_rfl
  · rw [costAll_cons, hncost, costAll_append]
    omega
  · simp only [List.length_cons, List.length_append]
    omega
  · intro category hall
    have hhead := hcategory category fun e he => hall e (List.mem_append_left _ he)
    have htail := h.category category fun e he => by
      rw [hn.grows.store.isIn (hrest e he)]
      exact hall e (List.mem_append_right _ he)
    refine List.forall_mem_cons.mpr ⟨?_, htail⟩
    rw [h.grows.store.isIn hn.known]
    exact hhead

/-- One item stays. -/
theorem Trims.keep (hw : w.Kept strict) {item : Option Ref} {rest rest' : List (Option Ref)}
    (hitem : w.store.KnownAt item) (hrest : ∀ e ∈ rest, w.store.KnownAt e)
    (h : Trims strict w w' rest rest') : Trims strict w w' (item :: rest) (item :: rest') :=
  Trims.cons hw (.refl hw hitem) (by simp) (fun _ hall => hall item List.mem_cons_self) hrest h

theorem Trims.refl (hw : w.Kept strict) {items : List (Option Ref)}
    (hitems : ∀ e ∈ items, w.store.KnownAt e) : Trims strict w w items items := by
  induction items with
  | nil => exact .nil hw
  | cons item rest ih =>
    obtain ⟨hitem, hrest⟩ := List.forall_mem_cons.mp hitems
    exact (ih hrest).keep hw hitem hrest

/-- Items at the front stay. -/
theorem Trims.behind (hw : w.Kept strict) {before items items' : List (Option Ref)}
    (hknown : ∀ e ∈ before ++ items, w.store.KnownAt e) (h : Trims strict w w' items items') :
    Trims strict w w' (before ++ items) (before ++ items') := by
  induction before with
  | nil => exact h
  | cons item rest ih =>
    obtain ⟨hitem, hrest⟩ := List.forall_mem_cons.mp hknown
    exact (ih hrest).keep hw hitem hrest

/-- The expressions of a run are parts of its statements. -/
theorem run_parts {s : Store} (hw : w.Kept strict) (hs : s.Extends w.store)
    {chunk es : List (Option Ref)} (hknown : ∀ e ∈ chunk, s.KnownAt e)
    (hmap : chunk.map (statementExpression? s) = es.map some) :
    (∀ e ∈ es, w.store.KnownAt e ∧ isOperand w.store strict e = true) ∧
      w.censusAll es ≤ w.censusAll chunk ∧ w.costAll es + es.length ≤ w.costAll chunk := by
  induction chunk generalizing es with
  | nil =>
    obtain rfl : es = [] := by simpa using hmap.symm
    simp
  | cons item rest ih =>
    cases es with
    | nil => simp at hmap
    | cons e es =>
      simp only [List.map_cons, List.cons.injEq] at hmap
      obtain ⟨r, rfl, hr⟩ := statementExpression?_eq hmap.1
      obtain ⟨hparts, hcensus, hcost⟩ :=
        ih (fun x hx => hknown x (List.mem_cons_of_mem _ hx)) hmap.2
      have hr' : w.store.get r = .node .expressionStatement [e] := by
        rw [hs.get r (hknown _ List.mem_cons_self r rfl), hr]
      obtain ⟨hcensus', hcost'⟩ := node_le hw.toCoherent hr' (hw.own_of_node hr' (by simp) rfl)
      simp only [censusAll_cons, censusAll_nil, costAll_cons, costAll_nil, add_zero]
        at hcensus' hcost'
      refine ⟨List.forall_mem_cons.mpr ⟨⟨knownAt_of_node hw.toCoherent hr' e (by simp),
        isOperand_of_carrier hw.typed (.inr rfl) hr'⟩, hparts⟩, ?_, ?_⟩
      · rw [censusAll_cons, censusAll_cons]
        exact add_le_add hcensus' hcensus
      · simp only [costAll_cons, List.length_cons]
        omega

/-- The category of an expression statement. -/
theorem category_of_run {s : Store} (hs : s.Extends w.store) {item e : Option Ref}
    (hknown : s.KnownAt item) (hitem : statementExpression? s item = some e) {category : Category}
    (h : w.store.isIn category item = true) : category = .statement := by
  obtain ⟨r, rfl, hr⟩ := statementExpression?_eq hitem
  have hr' : w.store.get r = .node .expressionStatement [e] := by
    rw [hs.get r (hknown r rfl), hr]
  have haccepts : Category.statement.accepts (Label.expressionStatement).kind = true := rfl
  exact category_eq hr' h haccepts

theorem fuses_effect {w₀ : Workspace} {position : Nat} {items items' : List (Option Ref)}
    {puts : List (Nat × Ref)} {gone : List Nat}
    (h : Fuses w₀.store position w items puts gone items' w')
    (hgrows : w₀.Grows w) (hw : w.Kept strict) (hknown : ∀ e ∈ items, w₀.store.KnownAt e) :
    Trims strict w w' items items' ∧ items'.length + gone.length = items.length := by
  -- along the list, with a workspace that has grown by the statements built so far
  induction h with
  | nil position w => exact ⟨.nil hw, rfl⟩
  | keep item _ _ ih =>
    obtain ⟨hitem, hrest⟩ := List.forall_mem_cons.mp hknown
    obtain ⟨htrims, hlength⟩ := ih hgrows hw hrest
    refine ⟨htrims.keep hw (hgrows.store.knownAt hitem)
      fun e he => hgrows.store.knownAt (hrest e he), ?_⟩
    simp only [List.length_cons]
    omega
  | @fuse position w w' chunk others rest rest' first puts gone hne hmap _ _ ih =>
    have hchunk : ∀ e ∈ chunk, w₀.store.KnownAt e := fun e he =>
      hknown e (List.mem_append_left _ he)
    have hrest : ∀ e ∈ rest, w₀.store.KnownAt e := fun e he =>
      hknown e (List.mem_append_right _ he)
    obtain ⟨hparts, hcensus, hcost⟩ := run_parts hw hgrows.store hchunk hmap
    obtain ⟨⟨hfk, hfo⟩, hothers⟩ := List.forall_mem_cons.mp hparts
    obtain ⟨hjoin, hop⟩ := builds_joinAll hw hfk hfo hothers
    obtain ⟨hstatement, hin⟩ := builds_carrier hw (.inr (.inr rfl)) hjoin hop
    have hlength : chunk.length = others.length + 1 := by
      simpa using congrArg List.length hmap
    have hbuilds : Builds strict w (fusedStatement w first others).2 chunk 0
        (some (fusedStatement w first others).1) := by
      refine hstatement.of_parts hcensus ?_
      simp only [List.length_cons] at hcost
      omega
    have hne' : chunk ≠ [] := by
      rintro rfl
      simp at hlength
    obtain ⟨htrims, hlength'⟩ := ih (hgrows.trans hbuilds.grows) hbuilds.kept hrest
    refine ⟨htrims.cons hw hbuilds hne' ?_ fun e he => hgrows.store.knownAt (hrest e he), ?_⟩
    · intro category hall
      cases chunk with
      | nil => exact absurd rfl hne'
      | cons c cs =>
        simp only [List.map_cons, List.cons.injEq] at hmap
        obtain rfl := category_of_run hgrows.store (hchunk c List.mem_cons_self) hmap.1
          (hall c List.mem_cons_self)
        exact hin
    · simp only [List.length_cons, List.length_append, List.length_range']
      omega

/-- What an expression statement and the completion behind it carry. -/
theorem completed_parts (hw : w.Kept strict) {statement next first second : Option Ref}
    {label : Label} (hst : statementExpression? w.store statement = some first)
    (hnext : completion? w.store next = some (label, second)) :
    ∃ r c, statement = some r ∧ next = some c ∧
      w.store.get r = .node .expressionStatement [first] ∧ w.store.get c = .node label [second] ∧
      isCarrier label ∧ (w.store.KnownAt first ∧ isOperand w.store strict first = true) ∧
      w.store.KnownAt second ∧ isOperand w.store strict second = true := by
  obtain ⟨r, rfl, hr⟩ := statementExpression?_eq hst
  obtain ⟨c, rfl, hc, hlabel⟩ := completion?_eq hnext
  refine ⟨r, c, rfl, rfl, hr, hc, hlabel.imp (·.1) Or.inl,
    ⟨knownAt_of_node hw.toCoherent hr first (by simp), isOperand_of_carrier hw.typed (.inr rfl) hr⟩,
    knownAt_of_node hw.toCoherent hc second (by simp), ?_⟩
  rcases hlabel with ⟨rfl, hsome⟩ | rfl
  · obtain ⟨x, rfl⟩ := Option.isSome_iff_exists.mp hsome
    exact isOperand_of_isIn (isIn_of_return hw.typed hc)
  · exact isOperand_of_carrier hw.typed (.inl rfl) hc

/-- What every step of a list comes to. -/
theorem Sequences.ListStep.effect (hw : w.Kept strict) {items items' : List (Option Ref)}
    (h : ListStep w items items' w') (hknown : ∀ e ∈ items, w.store.KnownAt e) :
    Trims strict w w' items items' ∧ items'.length < items.length := by
  cases h with
  | @dropped before after jump _ hafter =>
    have hpos := List.length_pos_iff.mpr hafter
    have hjump : w.store.KnownAt jump := hknown jump (by simp)
    have hcensus : w.censusAll [jump] ≤ w.censusAll (jump :: after) := by
      rw [Workspace.censusAll_cons, Workspace.censusAll_cons, Workspace.censusAll_nil]
      exact add_le_add le_rfl (Multiset.zero_le _)
    -- the jump stands for itself and for everything behind it
    have hbuilds : Builds strict w w (jump :: after) 0 jump :=
      (Builds.refl hw hjump).of_parts hcensus (by simp)
    have htrims : Trims strict w w (jump :: after ++ []) [jump] :=
      Trims.cons hw hbuilds (by simp) (fun _ hall => hall jump List.mem_cons_self) (by simp)
        (.nil hw)
    rw [List.append_nil] at htrims
    refine ⟨htrims.behind hw hknown, ?_⟩
    simp only [List.length_append, List.length_cons, List.length_nil]
    omega
  | @completed before after statement next first second label hst hnext =>
    have hstknown : w.store.KnownAt statement := hknown statement (by simp)
    have hafter : ∀ e ∈ after, w.store.KnownAt e := fun e he => hknown e (by simp [he])
    obtain ⟨r, c, rfl, rfl, hr, hc, hcarrier, ⟨hfk, hfo⟩, hsk, hso⟩ := completed_parts hw hst hnext
    obtain ⟨hjoin, hop⟩ := builds_join hw hfk hsk hfo hso
    obtain ⟨hstatement, hin⟩ := builds_carrier hw hcarrier hjoin hop
    obtain ⟨hrcensus, hrcost⟩ := node_le hw.toCoherent hr (hw.own_of_node hr (by simp) rfl)
    obtain ⟨hccensus, hccost⟩ :=
      node_le hw.toCoherent hc (hw.own_of_node hc hcarrier.isOwn.1 hcarrier.not_expression)
    simp only [censusAll_cons, censusAll_nil, costAll_cons, costAll_nil, add_zero]
      at hrcensus hrcost hccensus hccost
    generalize (join w first second).2.add label [(join w first second).1] = added
      at hstatement hin
    have hbuilds : Builds strict w added.2 [some r, some c] 0 (some added.1) := by
      refine hstatement.of_parts ?_ ?_
      · simp only [censusAll_cons, censusAll_nil, add_zero]
        exact add_le_add hrcensus hccensus
      · simp only [costAll_cons, costAll_nil]
        omega
    have htrims : Trims strict w added.2 ([some r, some c] ++ after) (some added.1 :: after) := by
      refine Trims.cons hw hbuilds (by simp) ?_ hafter
        (.refl hbuilds.kept fun e he => hbuilds.grows.store.knownAt (hafter e he))
      intro category hall
      obtain rfl := category_of_run (.refl w.store) hstknown hst (hall _ List.mem_cons_self)
      exact hin
    refine ⟨htrims.behind hw hknown, ?_⟩
    simp only [List.length_append, List.length_cons]
    omega
  | @fused _ _ puts gone _ hgone hfuses =>
    obtain ⟨htrims, hlength⟩ := fuses_effect hfuses (.refl w) hw hknown
    have := List.length_pos_iff.mpr hgone
    exact ⟨htrims, by omega⟩

end ScriptSimplifier
