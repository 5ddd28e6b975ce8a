import Mathlib.Data.List.Basic
import ScriptSimplifier.Syntax.Fingerprint
import ScriptSimplifier.Syntax.Validity

/-!
# Well-formed trees

A tree is *well-formed* if it is a node, every node in it has one child for each field of its kind,
and every child is of the category that its field accepts.  How much more is asked is a matter of
strictness: that required children are present, and that every unary operation has an operator.
The first is what `Tree.violations` checks (`violations_eq_nil_iff`), and trees with operators have
a source text (`source?_isSome`).
-/

namespace ScriptSimplifier

/-! ## Every node of a tree -/

mutual

/-- Whether a condition on the label and the children holds at every node of a tree. -/
def Tree.allNodes (p : Label → List Tree → Bool) : Tree → Bool
  | .missing => true
  | .node label children => p label children && allNodesOf p children
  | .list items => allNodesOf p items

/-- Whether a condition holds at every node of some trees. -/
def allNodesOf (p : Label → List Tree → Bool) : List Tree → Bool
  | [] => true
  | t :: rest => t.allNodes p && allNodesOf p rest

end

theorem allNodesOf_iff {p : Label → List Tree → Bool} {ts : List Tree} :
    allNodesOf p ts = true ↔ ∀ t ∈ ts, t.allNodes p = true := by
  induction ts with
  | nil => simp [allNodesOf]
  | cons t rest ih => simp [allNodesOf, ih]

theorem allNodes_node {p : Label → List Tree → Bool} {label : Label} {children : List Tree} :
    (Tree.node label children).allNodes p = true ↔
      p label children = true ∧ ∀ t ∈ children, t.allNodes p = true := by
  simp [Tree.allNodes, allNodesOf_iff]

theorem allNodes_list {p : Label → List Tree → Bool} {items : List Tree} :
    (Tree.list items).allNodes p = true ↔ ∀ t ∈ items, t.allNodes p = true := by
  simp [Tree.allNodes, allNodesOf_iff]

theorem Tree.size_le_sizeOfAll {t : Tree} {ts : List Tree} (h : t ∈ ts) :
    t.size ≤ sizeOfAll ts := by
  induction ts with
  | nil => simp at h
  | cons u rest ih =>
    simp only [sizeOfAll]
    rcases List.mem_cons.mp h with rfl | h
    · omega
    · have := ih h
      omega

/-- Induction over trees: a node and a list may use the statement for everything in them. -/
theorem Tree.induction {motive : Tree → Prop} (missing : motive .missing)
    (node : ∀ label children, (∀ t ∈ children, motive t) → motive (.node label children))
    (list : ∀ items, (∀ t ∈ items, motive t) → motive (.list items)) (t : Tree) : motive t := by
  suffices hsize : ∀ n (t : Tree), t.size ≤ n → motive t from hsize t.size t (Nat.le_refl _)
  intro n
  induction n with
  | zero =>
    intro t ht
    cases t <;> simp [Tree.size] at ht
  | succ n ih =>
    intro t ht
    cases t with
    | missing => exact missing
    | node label children =>
      simp only [Tree.size] at ht
      refine node label children fun u hu => ih u ?_
      have := Tree.size_le_sizeOfAll hu
      omega
    | list items =>
      simp only [Tree.size] at ht
      refine list items fun u hu => ih u ?_
      have := Tree.size_le_sizeOfAll hu
      omega

/-! ## The conditions -/

/-- A unary operation has an operator. -/
def Label.hasOperator : Label → Bool
  | .unaryExpression operator => !operator.isEmpty
  | _ => true

/-- How much is asked of a tree beyond its shape and the categories of children. -/
structure Strictness where
  /-- Required children are present. -/
  complete : Bool
  /-- Unary operations have an operator. -/
  operators : Bool
  deriving DecidableEq

namespace Strictness

/-- What reading guarantees. -/
def loose : Strictness := ⟨false, true⟩

/-- What validity guarantees. -/
def schema : Strictness := ⟨true, false⟩

/-- Everything. -/
def full : Strictness := ⟨true, true⟩

end Strictness

/-- Whether a field may hold a tree, as far as the tree's outermost nodes tell. -/
def Field.admits (strict : Strictness) (f : Field) : Tree → Bool
  | .missing => !f.isList && (f.optional || !strict.complete)
  | .list items => f.isList && items.all (·.isIn f.accepts)
  | .node label _ => !f.isList && f.accepts.accepts label.kind

namespace Tree

/-- One child for each field. -/
def nodeShaped (label : Label) (children : List Tree) : Bool :=
  children.length == label.fields.length

/-- Every child is one that its field may hold. -/
def nodeFits (strict : Strictness) (label : Label) (children : List Tree) : Bool :=
  (label.fields.zip children).all fun (f, child) => f.admits strict child

/-- All conditions on a node. -/
def nodeWellFormed (strict : Strictness) (label : Label) (children : List Tree) : Bool :=
  (label.hasOperator || !strict.operators) && nodeShaped label children &&
    nodeFits strict label children

/-- A node in which every node has one child for each field of its kind. -/
def isShaped (t : Tree) : Bool := t.kind?.isSome && t.allNodes nodeShaped

/-- Every unary operation has an operator. -/
def hasOperators (t : Tree) : Bool := t.allNodes fun label _ => label.hasOperator

/-- A node that obeys the schema everywhere. -/
def isWellFormed (strict : Strictness) (t : Tree) : Bool :=
  t.kind?.isSome && t.allNodes (nodeWellFormed strict)

end Tree

/-! ## Valid trees -/

mutual

theorem fieldViolations_eq_nil (path : Text) : ∀ (fields : List Field) (children : List Tree),
    children.length = fields.length → allNodesOf Tree.nodeShaped children = true →
    (fieldViolations path fields children = [] ↔
      ((fields.zip children).all fun (f, child) => f.admits .schema child) = true ∧
        allNodesOf (Tree.nodeFits .schema) children = true)
  | [], [], _, _ => by simp [fieldViolations, allNodesOf]
  | [], _ :: _, h, _ => by simp at h
  | _ :: _, [], h, _ => by simp at h
  | f :: fields, .missing :: children, hlength, hshaped => by
    simp only [allNodesOf, Bool.and_eq_true] at hshaped
    have hrest := fieldViolations_eq_nil path fields children (by simpa using hlength) hshaped.2
    cases hlist : f.isList <;> cases hopt : f.optional <;>
      simp [fieldViolations, allNodesOf, Tree.allNodes, Field.admits, hlist, hopt, hrest,
        Strictness.schema]
  | f :: fields, .list items :: children, hlength, hshaped => by
    simp only [allNodesOf, Tree.allNodes, Bool.and_eq_true] at hshaped
    have hrest := fieldViolations_eq_nil path fields children (by simpa using hlength) hshaped.2
    have hitems := itemViolations_eq_nil (path ++ Text.ascii '.' :: Text.ofString f.name)
      f.accepts 0 items hshaped.1
    cases hlist : f.isList
    · simp [fieldViolations, Field.admits, hlist]
    · simp only [fieldViolations, hlist, if_true, List.append_eq_nil_iff, hitems, hrest,
        List.zip_cons_cons, List.all_cons, Field.admits, allNodesOf, Tree.allNodes,
        Bool.and_eq_true, Bool.true_and]
      tauto
  | f :: fields, .node label below :: children, hlength, hshaped => by
    simp only [allNodesOf, Tree.allNodes, Tree.nodeShaped, Bool.and_eq_true, beq_iff_eq]
      at hshaped
    obtain ⟨⟨hbelow, hshapedBelow⟩, hshapedRest⟩ := hshaped
    have hrest := fieldViolations_eq_nil path fields children (by simpa using hlength) hshapedRest
    have hhere := fieldViolations_eq_nil (path ++ Text.ascii '.' :: Text.ofString f.name)
      label.fields below hbelow hshapedBelow
    cases hlist : f.isList
    · cases haccepts : f.accepts.accepts label.kind
      · simp [fieldViolations, Field.admits, hlist, haccepts]
      · simp only [fieldViolations, hlist, haccepts, if_true, Bool.false_eq_true, if_false,
          List.append_eq_nil_iff, hhere, hrest, List.zip_cons_cons, List.all_cons, Field.admits,
          allNodesOf, Tree.allNodes, Tree.nodeFits, Bool.and_eq_true, Bool.true_and,
          Bool.not_false]
        tauto
    · simp [fieldViolations, Field.admits, hlist]

theorem itemViolations_eq_nil (path : Text) (expected : Category) :
    ∀ (index : Nat) (items : List Tree), allNodesOf Tree.nodeShaped items = true →
    (itemViolations path expected index items = [] ↔
      items.all (·.isIn expected) = true ∧ allNodesOf (Tree.nodeFits .schema) items = true)
  | _, [], _ => by simp [itemViolations, allNodesOf]
  | _, .missing :: _, _ => by simp [itemViolations, Tree.isIn, Tree.kind?]
  | _, .list _ :: _, _ => by simp [itemViolations, Tree.isIn, Tree.kind?]
  | index, .node label below :: rest, hshaped => by
    simp only [allNodesOf, Tree.allNodes, Tree.nodeShaped, Bool.and_eq_true, beq_iff_eq]
      at hshaped
    obtain ⟨⟨hbelow, hshapedBelow⟩, hshapedRest⟩ := hshaped
    have hrest := itemViolations_eq_nil path expected (index + 1) rest hshapedRest
    have hhere := fieldViolations_eq_nil
      (path ++ Text.ascii '[' :: Text.ofNat index ++ [Text.ascii ']'])
      label.fields below hbelow hshapedBelow
    cases haccepts : expected.accepts label.kind
    · simp [itemViolations, Tree.isIn, Tree.kind?, haccepts]
    · simp only [itemViolations, haccepts, if_true, List.append_eq_nil_iff, hhere, hrest,
        List.all_cons, Tree.isIn, Tree.kind?, Option.any_some, allNodesOf, Tree.allNodes,
        Tree.nodeFits, Bool.and_eq_true, Bool.true_and]
      tauto

end

/-- A shaped tree is free of violations exactly if its nodes fit the schema strictly. -/
theorem violations_eq_nil_iff {t : Tree} (ht : t.isShaped = true) :
    t.violations = [] ↔ t.allNodes (Tree.nodeFits .schema) = true := by
  cases t with
  | missing => simp [Tree.isShaped, Tree.kind?] at ht
  | list items => simp [Tree.isShaped, Tree.kind?] at ht
  | node label children =>
    simp only [Tree.isShaped, Tree.allNodes, Tree.nodeShaped, Bool.and_eq_true, beq_iff_eq] at ht
    rw [Tree.violations, Tree.violationsAt,
      fieldViolations_eq_nil _ label.fields children ht.2.1 ht.2.2]
    simp [Tree.allNodes, Tree.nodeFits]

theorem invalid?_eq_none_iff {t : Tree} (ht : t.isShaped = true) :
    t.invalid? = none ↔ t.allNodes (Tree.nodeFits .schema) = true := by
  rw [← violations_eq_nil_iff ht]
  cases t with
  | missing => simp [Tree.isShaped, Tree.kind?] at ht
  | list items => simp [Tree.isShaped, Tree.kind?] at ht
  | node label children => simp [Tree.invalid?]

/-! ## Parts of well-formed trees -/

theorem nodeWellFormed_iff {strict : Strictness} {label : Label} {children : List Tree} :
    Tree.nodeWellFormed strict label children = true ↔
      (strict.operators = true → label.hasOperator = true) ∧
        children.length = label.fields.length ∧ Tree.nodeFits strict label children = true := by
  simp only [Tree.nodeWellFormed, Tree.nodeShaped, Bool.and_eq_true, Bool.or_eq_true,
    Bool.not_eq_true', beq_iff_eq, and_assoc]
  cases strict.operators <;> simp

/-- Only one demand concerns the children. -/
theorem nodeFits_eq {strict other : Strictness} (h : strict.complete = other.complete) :
    Tree.nodeFits strict = Tree.nodeFits other := by
  have hadmits : Field.admits strict = Field.admits other := by
    funext f t
    cases t <;> simp [Field.admits, h]
  funext label children
  rw [Tree.nodeFits, Tree.nodeFits, hadmits]

/-- A condition that follows from another at every node follows for the tree. -/
theorem Tree.allNodes_mono {p q : Label → List Tree → Bool}
    (h : ∀ label children, p label children = true → q label children = true) (t : Tree) :
    t.allNodes p = true → t.allNodes q = true := by
  induction t using Tree.induction with
  | missing => exact fun _ => rfl
  | node label children ih =>
    rw [allNodes_node, allNodes_node]
    rintro ⟨hhere, hbelow⟩
    exact ⟨h _ _ hhere, fun t ht => ih t ht (hbelow t ht)⟩
  | list items ih =>
    rw [allNodes_list, allNodes_list]
    exact fun hbelow t ht => ih t ht (hbelow t ht)

theorem Tree.allNodes_true (t : Tree) : (t.allNodes fun _ _ => true) = true := by
  induction t using Tree.induction with
  | missing => rfl
  | node label children ih => exact allNodes_node.mpr ⟨rfl, ih⟩
  | list items ih => exact allNodes_list.mpr ih

theorem Tree.allNodes_and {p q : Label → List Tree → Bool} (t : Tree) :
    (t.allNodes fun label children => p label children && q label children) = true ↔
      t.allNodes p = true ∧ t.allNodes q = true := by
  induction t using Tree.induction with
  | missing => simp [Tree.allNodes]
  | node label children ih =>
    simp only [allNodes_node, Bool.and_eq_true]
    constructor
    · rintro ⟨⟨hp, hq⟩, hbelow⟩
      exact ⟨⟨hp, fun t ht => ((ih t ht).mp (hbelow t ht)).1⟩,
        ⟨hq, fun t ht => ((ih t ht).mp (hbelow t ht)).2⟩⟩
    · rintro ⟨⟨hp, hpb⟩, hq, hqb⟩
      exact ⟨⟨hp, hq⟩, fun t ht => (ih t ht).mpr ⟨hpb t ht, hqb t ht⟩⟩
  | list items ih =>
    simp only [allNodes_list]
    constructor
    · intro hbelow
      exact ⟨fun t ht => ((ih t ht).mp (hbelow t ht)).1,
        fun t ht => ((ih t ht).mp (hbelow t ht)).2⟩
    · rintro ⟨hpb, hqb⟩
      exact fun t ht => (ih t ht).mpr ⟨hpb t ht, hqb t ht⟩

/-- Well-formed with all required children is: shaped, valid, and with operators if they are asked
for. -/
theorem isWellFormed_iff {strict : Strictness} (hcomplete : strict.complete = true) {t : Tree} :
    t.isWellFormed strict = true ↔
      t.isShaped = true ∧ (strict.operators = true → t.hasOperators = true) ∧
        t.invalid? = none := by
  have hoperators : (t.allNodes fun label _ => label.hasOperator || !strict.operators) = true ↔
      (strict.operators = true → t.hasOperators = true) := by
    cases hops : strict.operators with
    | true => simp [Tree.hasOperators]
    | false =>
      simp only [Bool.not_false, Bool.or_true, Bool.false_eq_true, false_implies, iff_true]
      exact Tree.allNodes_true t
  -- complete trees obey the schema under either strictness
  have hsplit : t.allNodes (Tree.nodeWellFormed strict) = true ↔
      ((strict.operators = true → t.hasOperators = true) ∧ t.allNodes Tree.nodeShaped = true) ∧
        t.allNodes (Tree.nodeFits .schema) = true := by
    have hfits : Tree.nodeFits strict = Tree.nodeFits .schema := nodeFits_eq hcomplete
    rw [← hoperators, ← hfits]
    show (t.allNodes fun label children =>
      ((label.hasOperator || !strict.operators) && Tree.nodeShaped label children) &&
        Tree.nodeFits strict label children) = true ↔ _
    rw [Tree.allNodes_and, Tree.allNodes_and]
  constructor
  · intro h
    simp only [Tree.isWellFormed, Bool.and_eq_true] at h
    obtain ⟨hkind, hall⟩ := h
    obtain ⟨⟨hops, hshape⟩, hfits⟩ := hsplit.mp hall
    have hshaped : t.isShaped = true := by simp [Tree.isShaped, hkind, hshape]
    exact ⟨hshaped, hops, (invalid?_eq_none_iff hshaped).mpr hfits⟩
  · rintro ⟨hshaped, hops, hvalid⟩
    have hfits := (invalid?_eq_none_iff hshaped).mp hvalid
    simp only [Tree.isShaped, Bool.and_eq_true] at hshaped
    simp only [Tree.isWellFormed, Bool.and_eq_true]
    exact ⟨hshaped.1, hsplit.mpr ⟨⟨hops, hshaped.2⟩, hfits⟩⟩

/-- What is well-formed to a stricter reading is so to the one that asks for operators only. -/
theorem isWellFormed_loose {strict : Strictness} (hoperators : strict.operators = true) {t : Tree}
    (h : t.isWellFormed strict = true) : t.isWellFormed .loose = true := by
  have hadmits : ∀ (f : Field) (t : Tree), f.admits strict t = true → f.admits .loose t = true := by
    intro f t hf
    cases t with
    | missing =>
      simp only [Field.admits, Bool.and_eq_true] at hf ⊢
      exact ⟨hf.1, by simp [Strictness.loose]⟩
    | node label children => exact hf
    | list items => exact hf
  simp only [Tree.isWellFormed, Bool.and_eq_true] at h ⊢
  refine ⟨h.1, Tree.allNodes_mono (fun label children hnode => ?_) t h.2⟩
  simp only [Tree.nodeWellFormed, Tree.nodeFits, Bool.and_eq_true, List.all_eq_true, hoperators]
    at hnode ⊢
  exact ⟨hnode.1, fun p hp => hadmits p.1 p.2 (hnode.2 p hp)⟩

/-! ## Source text -/

theorem sources?_isSome {ts : List Tree} :
    (sources? ts).isSome ↔ ∀ t ∈ ts, t.source?.isSome := by
  induction ts with
  | nil => simp [sources?]
  | cons t rest ih =>
    rw [List.forall_mem_cons, ← ih]
    cases ht : t.source? <;> cases hr : sources? rest <;> simp [sources?, ht, hr]

theorem argumentSources?_isSome {ts : List Tree}
    (h : ∀ t ∈ ts, t.isIn .expression = true ∧ t.source?.isSome) :
    (argumentSources? ts).isSome := by
  induction ts with
  | nil => simp [argumentSources?]
  | cons t rest ih =>
    obtain ⟨⟨hin, hsource⟩, hrest⟩ := List.forall_mem_cons.mp h
    obtain ⟨text, htext⟩ := Option.isSome_iff_exists.mp hsource
    obtain ⟨texts, htexts⟩ := Option.isSome_iff_exists.mp (ih hrest)
    simp [argumentSources?, hin, htext, htexts]

/-- The arguments of a well-formed call are expressions, so they have sources as operands if they
have sources. -/
theorem argumentSources?_of_fits {callee : Tree} {items : List Tree}
    (hfits : Tree.nodeFits .loose .callExpression [callee, .list items] = true)
    (hitems : (sources? items).isSome) : ∃ texts, argumentSources? items = some texts := by
  have hexpr : ∀ t ∈ items, t.isIn .expression = true := by
    have harguments : (Field.list "arguments" .expression).admits .loose (.list items) = true := by
      simp only [Tree.nodeFits, Label.fields, Label.kind, Kind.fields, List.zip_cons_cons,
        List.all_cons, Bool.and_eq_true] at hfits
      exact hfits.2.1
    simpa [Field.admits, Field.list] using harguments
  have hall := sources?_isSome.mp hitems
  exact Option.isSome_iff_exists.mp (argumentSources?_isSome fun t ht => ⟨hexpr t ht, hall t ht⟩)

/-- A node of well-formed parts has a source if its children have. -/
theorem node_source?_isSome {label : Label} {children : List Tree}
    (h : Tree.nodeWellFormed .loose label children = true)
    (hbelow : ∀ t ∈ children, t.source?.isSome) :
    (Tree.node label children).source?.isSome := by
  obtain ⟨hoperator, hlength, hfits⟩ := nodeWellFormed_iff.mp h
  have hsource : ∀ t ∈ children, ∃ text, t.source? = some text :=
    fun t ht => Option.isSome_iff_exists.mp (hbelow t ht)
  have hitems : ∀ items, Tree.list items ∈ children → (sources? items).isSome := by
    intro items hmem
    have hlist := hbelow _ hmem
    rwa [Tree.source?, Option.isSome_map] at hlist
  cases label with
  | script =>
    obtain ⟨a, rfl⟩ := List.length_eq_one_iff.mp hlength
    simpa [Tree.source?] using hbelow a
  -- a list is printed item by item, and what stands in its place otherwise has a fixed text
  | functionBody | block =>
    obtain ⟨a, rfl⟩ := List.length_eq_one_iff.mp hlength
    cases a with
    | list items =>
      obtain ⟨texts, htexts⟩ := Option.isSome_iff_exists.mp (hitems items (by simp))
      simp [Tree.source?, htexts]
    | _ => simp [Tree.source?]
  | callExpression =>
    obtain ⟨callee, arguments, rfl⟩ := List.length_eq_two.mp hlength
    obtain ⟨text, htext⟩ := hsource callee (by simp)
    cases arguments with
    | list items =>
      obtain ⟨texts, htexts⟩ := argumentSources?_of_fits hfits (hitems items (by simp))
      simp [Tree.source?, htext, htexts]
    | _ => simp [Tree.source?, htext]
  | functionDeclaration name =>
    obtain ⟨params, body, rfl⟩ := List.length_eq_two.mp hlength
    obtain ⟨text, htext⟩ := hsource body (by simp)
    cases params with
    | list items =>
      obtain ⟨texts, htexts⟩ := Option.isSome_iff_exists.mp (hitems items (by simp))
      simp [Tree.source?, htext, htexts]
    | _ => simp [Tree.source?, htext]
  | unaryExpression operator =>
    obtain ⟨operand, rfl⟩ := List.length_eq_one_iff.mp hlength
    obtain ⟨text, htext⟩ := hsource operand (by simp)
    -- only an empty operator is not printed
    obtain ⟨last, hlast⟩ : ∃ last, operator.getLast? = some last := by
      cases operator with
      | nil => simp [Label.hasOperator, Strictness.loose] at hoperator
      | cons b rest => exact ⟨_, List.getLast?_eq_some_getLast (by simp)⟩
    simp [Tree.source?, htext, Source.unary?, hlast]
  | blockStatement | expressionStatement | returnStatement | throwStatement
  | staticMemberExpression property =>
    obtain ⟨a, rfl⟩ := List.length_eq_one_iff.mp hlength
    obtain ⟨text, htext⟩ := hsource a (by simp)
    simp [Tree.source?, htext]
  | whileStatement | binaryExpression operator | assignmentExpression =>
    obtain ⟨a, b, rfl⟩ := List.length_eq_two.mp hlength
    obtain ⟨text, htext⟩ := hsource a (by simp)
    obtain ⟨text', htext'⟩ := hsource b (by simp)
    simp [Tree.source?, htext, htext']
  | ifStatement | conditionalExpression =>
    obtain ⟨a, b, c, rfl⟩ := List.length_eq_three.mp hlength
    obtain ⟨text, htext⟩ := hsource a (by simp)
    obtain ⟨text', htext'⟩ := hsource b (by simp)
    obtain ⟨text'', htext''⟩ := hsource c (by simp)
    simp [Tree.source?, htext, htext', htext'']
  | _ => simp [Tree.source?]

theorem source?_isSome {t : Tree} (h : t.allNodes (Tree.nodeWellFormed .loose) = true) :
    t.source?.isSome := by
  induction t using Tree.induction with
  | missing => rfl
  | node label children ih =>
    obtain ⟨hhere, hbelow⟩ := allNodes_node.mp h
    exact node_source?_isSome hhere fun t ht => ih t ht (hbelow t ht)
  | list items ih =>
    rw [Tree.source?, Option.isSome_map, sources?_isSome]
    exact fun t ht => ih t ht (allNodes_list.mp h t ht)

/-- A well-formed tree has a fingerprint. -/
theorem fingerprint?_isSome {t : Tree} (h : t.isWellFormed .loose = true) :
    t.fingerprint?.isSome := by
  simp only [Tree.isWellFormed, Bool.and_eq_true] at h
  simpa [Tree.fingerprint?, Tree.snapshot?] using source?_isSome h.2

end ScriptSimplifier
