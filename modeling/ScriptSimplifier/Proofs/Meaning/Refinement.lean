import ScriptSimplifier.Proofs.Meaning.Semantics
import ScriptSimplifier.Proofs.Syntax.WellFormed

/-!
# Trees that stand for others

One tree may stand for another if it means the same in every role: as an expression, as a statement,
as a block, and as a list of arguments, statements or parameters.  A name or a member also keeps
what it is as the binding of an assignment; other expressions need not, so assignments have to be to
names and members for this to be a congruence (`Refines.node`, `Refines.list`).
-/

namespace ScriptSimplifier

namespace Tree

/-- Something that can be assigned to. -/
def isTarget (t : Tree) : Bool :=
  t.kind? == some .identifierExpression || t.kind? == some .staticMemberExpression

/-- An assignment is to a name or a member. -/
def nodeAssigns (label : Label) (children : List Tree) : Bool :=
  label != .assignmentExpression || children.head?.any isTarget

/-- Every assignment is to a name or a member. -/
def assignsTargets (t : Tree) : Bool := t.allNodes nodeAssigns

end Tree

namespace Semantics

/-- The second tree may stand for the first. -/
structure Refines (S : Semantics) (t t' : Tree) : Prop where
  assigns : t'.assignsTargets = true
  evaluate : S.evaluate t' = S.evaluate t
  evaluateItems : S.evaluateItems t' = S.evaluateItems t
  execute : S.execute t' = S.execute t
  run : S.run t' = S.run t
  executeItems : S.executeItems t' = S.executeItems t
  names : t'.names = t.names
  bindingName : t'.bindingName? = t.bindingName?
  isExpression : t'.isIn .expression = t.isIn .expression
  target : t.isTarget = true → t'.isTarget = true ∧ S.target? t' = S.target? t

variable {S : Semantics} {label : Label} {t t' : Tree} {ts ts' us us' : List Tree}

theorem Refines.refl (h : t.assignsTargets = true) : S.Refines t t :=
  ⟨h, rfl, rfl, rfl, rfl, rfl, rfl, rfl, rfl, fun ht => ⟨ht, rfl⟩⟩

theorem Refines.trans {u : Tree} (h : S.Refines t t') (h' : S.Refines t' u) : S.Refines t u where
  assigns := h'.assigns
  evaluate := h'.evaluate.trans h.evaluate
  evaluateItems := h'.evaluateItems.trans h.evaluateItems
  execute := h'.execute.trans h.execute
  run := h'.run.trans h.run
  executeItems := h'.executeItems.trans h.executeItems
  names := h'.names.trans h.names
  bindingName := h'.bindingName.trans h.bindingName
  isExpression := h'.isExpression.trans h.isExpression
  target ht :=
    ⟨(h'.target (h.target ht).1).1, (h'.target (h.target ht).1).2.trans (h.target ht).2⟩

/-! ## Nodes -/

/-- What a node means as an expression depends on what its children mean. -/
theorem evaluate_node (hassigns : Tree.nodeAssigns label ts = true)
    (h : List.Forall₂ S.Refines ts ts') :
    S.evaluate (.node label ts') = S.evaluate (.node label ts) := by
  rcases h with _ | ⟨ha, _ | ⟨hb, _ | ⟨hc, _ | ⟨hd, hrest⟩⟩⟩⟩
  · rfl
  · cases label <;> simp only [Semantics.evaluate, ha.evaluate]
  · cases label <;>
      simp only [Semantics.evaluate, ha.evaluate, hb.evaluate, hb.evaluateItems]
    -- an assignment looks at its binding, which is a name or a member
    have htarget := (ha.target (by simpa [Tree.nodeAssigns] using hassigns)).2
    rw [htarget]
  · cases label <;> simp only [Semantics.evaluate, ha.evaluate, hb.evaluate, hc.evaluate]
  · cases label <;> rfl

theorem execute_node (h : List.Forall₂ S.Refines ts ts') :
    S.execute (.node label ts') = S.execute (.node label ts) := by
  rcases h with _ | ⟨ha, _ | ⟨hb, _ | ⟨hc, _ | ⟨hd, hrest⟩⟩⟩⟩
  · rfl
  · cases label <;> simp only [Semantics.execute, ha.evaluate, ha.run]
  · cases label <;>
      simp only [Semantics.execute, ha.evaluate, hb.execute, ha.names, hb.run]
  · cases label <;> simp only [Semantics.execute, ha.evaluate, hb.execute, hc.execute]
  · cases label <;> rfl

theorem run_node (h : List.Forall₂ S.Refines ts ts') :
    S.run (.node label ts') = S.run (.node label ts) := by
  rcases h with _ | ⟨ha, _ | ⟨hb, hrest⟩⟩
  · rfl
  · cases label <;> simp only [Semantics.run, ha.executeItems]
  · cases label <;> rfl

theorem target_node (h : List.Forall₂ S.Refines ts ts') :
    S.target? (.node label ts') = S.target? (.node label ts) := by
  rcases h with _ | ⟨ha, _ | ⟨hb, hrest⟩⟩
  · rfl
  · cases label <;> simp only [Semantics.target?, ha.evaluate]
  · cases label <;> rfl

theorem assigns_of_mem (h : List.Forall₂ S.Refines ts ts') :
    ∀ t' ∈ ts', t'.assignsTargets = true := by
  induction h with
  | nil => simp
  | cons ha _ ih => exact List.forall_mem_cons.mpr ⟨ha.assigns, ih⟩

theorem assignsTargets_node (h : Tree.nodeAssigns label ts = true)
    (hts : List.Forall₂ S.Refines ts ts') : (Tree.node label ts').assignsTargets = true := by
  refine allNodes_node.mpr ⟨?_, assigns_of_mem hts⟩
  rcases hts with _ | ⟨ha, _⟩
  · exact h
  · simp only [Tree.nodeAssigns, List.head?_cons, Option.any_some, Bool.or_eq_true] at h ⊢
    exact h.imp_right fun ht => (ha.target ht).1

/-- Children may be put in place of others. -/
theorem Refines.node (h : Tree.nodeAssigns label ts = true)
    (hts : List.Forall₂ S.Refines ts ts') :
    S.Refines (.node label ts) (.node label ts') where
  assigns := assignsTargets_node h hts
  evaluate := evaluate_node h hts
  evaluateItems := rfl
  execute := execute_node hts
  run := run_node hts
  executeItems := rfl
  names := rfl
  bindingName := by cases label <;> rfl
  isExpression := rfl
  target ht := ⟨ht, target_node hts⟩

/-! ## Lists -/

/-- The second elements may stand for the first in a list. -/
structure RefinesAll (S : Semantics) (ts ts' : List Tree) : Prop where
  assigns : ∀ t' ∈ ts', t'.assignsTargets = true
  evaluateAll : S.evaluateAll ts' = S.evaluateAll ts
  executeAll : S.executeAll ts' = S.executeAll ts
  names : ts'.filterMap Tree.bindingName? = ts.filterMap Tree.bindingName?

theorem RefinesAll.refl (h : ∀ t ∈ ts, t.assignsTargets = true) : S.RefinesAll ts ts :=
  ⟨h, rfl, rfl, rfl⟩

/-- A list whose items may stand for those of another. -/
theorem Refines.list (h : S.RefinesAll ts ts') : S.Refines (.list ts) (.list ts') where
  assigns := allNodes_list.mpr h.assigns
  evaluate := rfl
  evaluateItems := h.evaluateAll
  execute := rfl
  run := rfl
  executeItems := h.executeAll
  names := h.names
  bindingName := rfl
  isExpression := rfl
  target ht := by simp [Tree.isTarget, Tree.kind?] at ht

theorem evaluateAll_append (S : Semantics) (ts us : List Tree) :
    S.evaluateAll (ts ++ us) = S.evaluateAll ts ++ S.evaluateAll us := by
  induction ts with
  | nil => rfl
  | cons t rest ih =>
    simp only [List.cons_append, Semantics.evaluateAll]
    split
    · rw [ih, List.cons_append]
    · exact ih

theorem executeAll_append (S : Semantics) (ts us : List Tree) :
    S.executeAll (ts ++ us) = Completion.andThen (S.executeAll ts) (S.executeAll us) := by
  induction ts with
  | nil => simp only [List.nil_append, Semantics.executeAll, Completion.normal_andThen]
  | cons t rest ih =>
    simp only [List.cons_append, Semantics.executeAll, ih, Completion.andThen_assoc]

theorem executeAll_singleton (S : Semantics) (t : Tree) : S.executeAll [t] = S.execute t := by
  simp only [Semantics.executeAll, Completion.andThen_normal]

theorem RefinesAll.append (h : S.RefinesAll ts ts') (h' : S.RefinesAll us us') :
    S.RefinesAll (ts ++ us) (ts' ++ us') where
  assigns t ht := (List.mem_append.mp ht).elim (h.assigns t) (h'.assigns t)
  evaluateAll := by rw [evaluateAll_append, evaluateAll_append, h.evaluateAll, h'.evaluateAll]
  executeAll := by rw [executeAll_append, executeAll_append, h.executeAll, h'.executeAll]
  names := by rw [List.filterMap_append, List.filterMap_append, h.names, h'.names]

theorem RefinesAll.singleton (h : S.Refines t t') : S.RefinesAll [t] [t'] where
  assigns := by simpa using h.assigns
  evaluateAll := by simp only [Semantics.evaluateAll, h.isExpression, h.evaluate]
  executeAll := by rw [executeAll_singleton, executeAll_singleton, h.execute]
  names := by simp only [List.filterMap_cons, h.bindingName]

/-- Items may be put in place of others one by one. -/
theorem RefinesAll.of_forall₂ (h : List.Forall₂ S.Refines ts ts') : S.RefinesAll ts ts' := by
  induction h with
  | nil => exact .refl (by simp)
  | cons ha _ ih => exact (RefinesAll.singleton ha).append ih

/-! ## Statements and expressions -/

/-- A node that belongs to a category. -/
theorem node_of_isIn {category : Category} (h : t.isIn category = true) :
    ∃ label children, t = .node label children ∧ category.accepts label.kind = true := by
  cases t with
  | missing => simp [Tree.isIn, Tree.kind?] at h
  | node label children => exact ⟨label, children, rfl, by simpa [Tree.isIn, Tree.kind?] using h⟩
  | list items => simp [Tree.isIn, Tree.kind?] at h

/-- A statement has no meaning in other roles. -/
theorem statement_roles (S : Semantics) (children : List Tree)
    (h : Category.statement.accepts label.kind = true) :
    S.evaluate (.node label children) = .stuck ∧ S.run (.node label children) = .stuck ∧
      (Tree.node label children).bindingName? = none ∧
      (Tree.node label children).isIn .expression = false ∧
      (Tree.node label children).isTarget = false := by
  cases label <;>
    first
    | exact ⟨rfl, rfl, rfl, rfl, rfl⟩
    | simp [Category.accepts, Label.kind, Kind.isStatement] at h

/-- An expression has no meaning in other roles, except as a binding. -/
theorem expression_roles (S : Semantics) (children : List Tree)
    (h : Category.expression.accepts label.kind = true) :
    S.execute (.node label children) = .stuck ∧ S.run (.node label children) = .stuck ∧
      (Tree.node label children).bindingName? = none := by
  cases label <;>
    first
    | exact ⟨rfl, rfl, rfl⟩
    | simp [Category.accepts, Label.kind, Kind.isExpression] at h

/-- A statement may stand for another one that does the same. -/
theorem refines_of_statement (h : t.isIn .statement = true) (h' : t'.isIn .statement = true)
    (hassigns : t'.assignsTargets = true) (hexecute : S.execute t' = S.execute t) :
    S.Refines t t' := by
  obtain ⟨label, children, rfl, hlabel⟩ := node_of_isIn h
  obtain ⟨label', children', rfl, hlabel'⟩ := node_of_isIn h'
  obtain ⟨hevaluate, hrun, hname, hin, htarget⟩ := statement_roles S children hlabel
  obtain ⟨hevaluate', hrun', hname', hin', _⟩ := statement_roles S children' hlabel'
  exact ⟨hassigns, hevaluate'.trans hevaluate.symm, rfl, hexecute, hrun'.trans hrun.symm, rfl, rfl,
    hname'.trans hname.symm, hin'.trans hin.symm, fun ht => by simp [htarget] at ht⟩

/-- An expression that cannot be assigned to may be replaced by any that does the same. -/
theorem refines_of_expression (h : t.isIn .expression = true) (h' : t'.isIn .expression = true)
    (hassigns : t'.assignsTargets = true) (hother : t.isTarget = false)
    (hevaluate : S.evaluate t' = S.evaluate t) : S.Refines t t' := by
  obtain ⟨label, children, rfl, hlabel⟩ := node_of_isIn h
  obtain ⟨label', children', rfl, hlabel'⟩ := node_of_isIn h'
  obtain ⟨hexecute, hrun, hname⟩ := expression_roles S children hlabel
  obtain ⟨hexecute', hrun', hname'⟩ := expression_roles S children' hlabel'
  exact ⟨hassigns, hevaluate, rfl, hexecute'.trans hexecute.symm, hrun'.trans hrun.symm, rfl, rfl,
    hname'.trans hname.symm, h'.trans h.symm, fun ht => by simp [hother] at ht⟩

theorem statements_roles (S : Semantics) (h : ∀ t ∈ ts, t.isIn .statement = true) :
    S.evaluateAll ts = [] ∧ ts.filterMap Tree.bindingName? = [] := by
  induction ts with
  | nil => exact ⟨rfl, rfl⟩
  | cons t rest ih =>
    obtain ⟨ht, hrest⟩ := List.forall_mem_cons.mp h
    obtain ⟨hall, hnames⟩ := ih hrest
    obtain ⟨label, children, rfl, hlabel⟩ := node_of_isIn ht
    obtain ⟨_, _, hname, hin, _⟩ := statement_roles S children hlabel
    refine ⟨?_, ?_⟩
    · rw [Semantics.evaluateAll, hin, hall]
      rfl
    · rw [List.filterMap_cons, hname, hnames]

/-- Statements may stand for others that do the same in a row. -/
theorem refinesAll_of_statements (h : ∀ t ∈ ts, t.isIn .statement = true)
    (h' : ∀ t ∈ ts', t.isIn .statement = true) (hassigns : ∀ t ∈ ts', t.assignsTargets = true)
    (hexecute : S.executeAll ts' = S.executeAll ts) : S.RefinesAll ts ts' := by
  obtain ⟨hall, hnames⟩ := statements_roles S h
  obtain ⟨hall', hnames'⟩ := statements_roles S h'
  exact ⟨hassigns, hall'.trans hall.symm, hexecute, hnames'.trans hnames.symm⟩

end Semantics

end ScriptSimplifier
