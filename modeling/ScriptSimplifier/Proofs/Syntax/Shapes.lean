import ScriptSimplifier.Proofs.Syntax.WellFormed

/-!
# Shapes of valid trees

A valid tree with operators is an expression, a statement or one of the few kinds that hold
statements.  `Expression` and `Statement` spell out what that means for each kind, together with a
condition that holds at every node, and the source text of each shape is given in terms of the texts
of its parts.  What follows about printing is proved by induction on these shapes.
-/

namespace ScriptSimplifier

variable {p q : Label → List Tree → Bool}

/-- A complete expression, every node of which satisfies a condition. -/
inductive Expression (p : Label → List Tree → Bool) : Tree → Prop
  | identifier {name : Text} (h : p (.identifierExpression name) [] = true) :
      Expression p (.node (.identifierExpression name) [])
  | number {x : Double} (h : p (.numericLiteral x) [] = true) :
      Expression p (.node (.numericLiteral x) [])
  | string {t : Text} (h : p (.stringLiteral t) [] = true) :
      Expression p (.node (.stringLiteral t) [])
  | boolean {b : Bool} (h : p (.booleanLiteral b) [] = true) :
      Expression p (.node (.booleanLiteral b) [])
  | null (h : p .nullLiteral [] = true) : Expression p (.node .nullLiteral [])
  | binary {operator : Text} {left right : Tree}
      (h : p (.binaryExpression operator) [left, right] = true)
      (hleft : Expression p left) (hright : Expression p right) :
      Expression p (.node (.binaryExpression operator) [left, right])
  | unary {operator : Text} {operand : Tree} (hoperator : operator ≠ [])
      (h : p (.unaryExpression operator) [operand] = true) (hoperand : Expression p operand) :
      Expression p (.node (.unaryExpression operator) [operand])
  | conditional {test consequent alternate : Tree}
      (h : p .conditionalExpression [test, consequent, alternate] = true)
      (htest : Expression p test) (hconsequent : Expression p consequent)
      (halternate : Expression p alternate) :
      Expression p (.node .conditionalExpression [test, consequent, alternate])
  | call {callee : Tree} {arguments : List Tree}
      (h : p .callExpression [callee, .list arguments] = true) (hcallee : Expression p callee)
      (harguments : ∀ t ∈ arguments, Expression p t) :
      Expression p (.node .callExpression [callee, .list arguments])
  | member {property : Text} {object : Tree}
      (h : p (.staticMemberExpression property) [object] = true) (hobject : Expression p object) :
      Expression p (.node (.staticMemberExpression property) [object])
  | assignment {binding value : Tree} (h : p .assignmentExpression [binding, value] = true)
      (hbinding : Expression p binding) (hvalue : Expression p value) :
      Expression p (.node .assignmentExpression [binding, value])

/-- A complete binding, the node of which satisfies a condition. -/
inductive Binding (p : Label → List Tree → Bool) : Tree → Prop
  | identifier {name : Text} (h : p (.bindingIdentifier name) [] = true) :
      Binding p (.node (.bindingIdentifier name) [])

/-- A complete statement, every node of which satisfies a condition. -/
inductive Statement (p : Label → List Tree → Bool) : Tree → Prop
  | block {statements : List Tree}
      (houter : p .blockStatement [.node .block [.list statements]] = true)
      (hinner : p .block [.list statements] = true) (hstatements : ∀ t ∈ statements, Statement p t) :
      Statement p (.node .blockStatement [.node .block [.list statements]])
  | expression {e : Tree} (h : p .expressionStatement [e] = true) (he : Expression p e) :
      Statement p (.node .expressionStatement [e])
  | returnNothing (h : p .returnStatement [.missing] = true) :
      Statement p (.node .returnStatement [.missing])
  | returnValue {e : Tree} (h : p .returnStatement [e] = true) (he : Expression p e) :
      Statement p (.node .returnStatement [e])
  | throwing {e : Tree} (h : p .throwStatement [e] = true) (he : Expression p e) :
      Statement p (.node .throwStatement [e])
  | breaking {target : Text} (h : p (.breakStatement target) [] = true) :
      Statement p (.node (.breakStatement target) [])
  | continuing {target : Text} (h : p (.continueStatement target) [] = true) :
      Statement p (.node (.continueStatement target) [])
  | empty (h : p .emptyStatement [] = true) : Statement p (.node .emptyStatement [])
  | ifThen {test consequent : Tree} (h : p .ifStatement [test, consequent, .missing] = true)
      (htest : Expression p test) (hconsequent : Statement p consequent) :
      Statement p (.node .ifStatement [test, consequent, .missing])
  | ifElse {test consequent alternate : Tree}
      (h : p .ifStatement [test, consequent, alternate] = true) (htest : Expression p test)
      (hconsequent : Statement p consequent) (halternate : Statement p alternate) :
      Statement p (.node .ifStatement [test, consequent, alternate])
  | loop {test body : Tree} (h : p .whileStatement [test, body] = true)
      (htest : Expression p test) (hbody : Statement p body) :
      Statement p (.node .whileStatement [test, body])
  | function {name : Text} {params statements : List Tree}
      (houter : p (.functionDeclaration name)
        [.list params, .node .functionBody [.list statements]] = true)
      (hinner : p .functionBody [.list statements] = true) (hparams : ∀ t ∈ params, Binding p t)
      (hstatements : ∀ t ∈ statements, Statement p t) :
      Statement p (.node (.functionDeclaration name)
        [.list params, .node .functionBody [.list statements]])

/-! ## Valid trees have these shapes -/

/-- What is known of an element of a valid tree: the schema and the condition hold at every node. -/
def Tree.Good (p : Label → List Tree → Bool) (t : Tree) : Prop :=
  t.allNodes (Tree.nodeWellFormed .full) = true ∧ t.allNodes p = true

theorem good_node {label : Label} {children : List Tree}
    (h : (Tree.node label children).Good p) :
    (label.hasOperator = true ∧ children.length = label.fields.length ∧
      Tree.nodeFits .full label children = true) ∧ p label children = true ∧
      ∀ t ∈ children, t.Good p := by
  obtain ⟨hformed, hp⟩ := h
  obtain ⟨hhere, hbelow⟩ := allNodes_node.mp hformed
  obtain ⟨hnode, hpbelow⟩ := allNodes_node.mp hp
  obtain ⟨hoperator, hlength, hfits⟩ := nodeWellFormed_iff.mp hhere
  exact ⟨⟨hoperator rfl, hlength, hfits⟩, hnode, fun t ht => ⟨hbelow t ht, hpbelow t ht⟩⟩

theorem good_list {items : List Tree} (h : (Tree.list items).Good p) : ∀ t ∈ items, t.Good p :=
  fun t ht => ⟨allNodes_list.mp h.1 t ht, allNodes_list.mp h.2 t ht⟩

/-- A required field holds a node of its category. -/
theorem isIn_of_single {name : String} {c : Category} {t : Tree}
    (h : (Field.single name c).admits .full t = true) : t.isIn c = true := by
  cases t with
  | missing => simp [Field.admits, Field.single, Strictness.full] at h
  | list items => simp [Field.admits, Field.single] at h
  | node label children => simpa [Field.admits, Field.single, Tree.isIn, Tree.kind?] using h

/-- An optional field holds a node of its category or nothing. -/
theorem isIn_of_maybe {name : String} {c : Category} {t : Tree}
    (h : (Field.maybe name c).admits .full t = true) : t = .missing ∨ t.isIn c = true := by
  cases t with
  | missing => exact .inl rfl
  | list items => simp [Field.admits, Field.maybe] at h
  | node label children =>
    exact .inr (by simpa [Field.admits, Field.maybe, Tree.isIn, Tree.kind?] using h)

/-- A list field holds a list of nodes of its category. -/
theorem isIn_of_list {name : String} {c : Category} {t : Tree}
    (h : (Field.list name c).admits .full t = true) :
    ∃ items, t = .list items ∧ ∀ item ∈ items, item.isIn c = true := by
  cases t with
  | missing => simp [Field.admits, Field.list] at h
  | node label children => simp [Field.admits, Field.list] at h
  | list items => exact ⟨items, rfl, by simpa [Field.admits, Field.list] using h⟩

/-! ### Children by the number of fields -/

section Children

variable {label : Label} {children : List Tree} {f g h : Field}

theorem children_zero (hlength : children.length = label.fields.length)
    (hfields : label.fields = []) : children = [] := by
  rw [hfields] at hlength
  exact List.length_eq_zero_iff.mp hlength

theorem children_one (hlength : children.length = label.fields.length)
    (hfits : Tree.nodeFits .full label children = true) (hfields : label.fields = [f]) :
    ∃ a, children = [a] ∧ f.admits .full a = true := by
  rw [hfields] at hlength
  obtain ⟨a, rfl⟩ := List.length_eq_one_iff.mp hlength
  exact ⟨a, rfl, by simpa [Tree.nodeFits, hfields] using hfits⟩

theorem children_two (hlength : children.length = label.fields.length)
    (hfits : Tree.nodeFits .full label children = true) (hfields : label.fields = [f, g]) :
    ∃ a b, children = [a, b] ∧ f.admits .full a = true ∧ g.admits .full b = true := by
  rw [hfields] at hlength
  obtain ⟨a, b, rfl⟩ := List.length_eq_two.mp hlength
  exact ⟨a, b, rfl, by simpa [Tree.nodeFits, hfields] using hfits⟩

theorem children_three (hlength : children.length = label.fields.length)
    (hfits : Tree.nodeFits .full label children = true) (hfields : label.fields = [f, g, h]) :
    ∃ a b c, children = [a, b, c] ∧ f.admits .full a = true ∧ g.admits .full b = true ∧
      h.admits .full c = true := by
  rw [hfields] at hlength
  obtain ⟨a, b, c, rfl⟩ := List.length_eq_three.mp hlength
  exact ⟨a, b, c, rfl, by simpa [Tree.nodeFits, hfields] using hfits⟩

end Children

theorem size_lt_node {t : Tree} {label : Label} {children : List Tree} (h : t ∈ children) :
    t.size < (Tree.node label children).size := by
  have hsize := Tree.size_le_sizeOfAll h
  rw [Tree.size]
  omega

theorem size_lt_list {t : Tree} {items : List Tree} (h : t ∈ items) :
    t.size < (Tree.list items).size := by
  have hsize := Tree.size_le_sizeOfAll h
  rw [Tree.size]
  omega

/-- An expression that is well-formed has one of the shapes. -/
theorem expression_of_good (t : Tree) (h : t.Good p) (hin : t.isIn .expression = true) :
    Expression p t := by
  induction t using (measure Tree.size).wf.induction with
  | _ t ih =>
  rcases t with _ | ⟨label, children⟩ | items
  · simp [Tree.isIn, Tree.kind?] at hin
  · obtain ⟨⟨hoperator, hlength, hfits⟩, hp, hbelow⟩ := good_node h
    have hsingle : ∀ {name : String} {u : Tree}, u ∈ children →
        (Field.single name .expression).admits .full u = true → Expression p u :=
      fun hmem hadmits => ih _ (size_lt_node hmem) (hbelow _ hmem) (isIn_of_single hadmits)
    cases label with
    | binaryExpression operator =>
      obtain ⟨left, right, rfl, hleft, hright⟩ := children_two hlength hfits rfl
      exact .binary hp (hsingle (by simp) hleft) (hsingle (by simp) hright)
    | unaryExpression operator =>
      obtain ⟨operand, rfl, hoperand⟩ := children_one hlength hfits rfl
      exact .unary (by simpa [Label.hasOperator] using hoperator) hp (hsingle (by simp) hoperand)
    | conditionalExpression =>
      obtain ⟨test, consequent, alternate, rfl, htest, hconsequent, halternate⟩ :=
        children_three hlength hfits rfl
      exact .conditional hp (hsingle (by simp) htest) (hsingle (by simp) hconsequent)
        (hsingle (by simp) halternate)
    | callExpression =>
      obtain ⟨callee, arguments, rfl, hcallee, harguments⟩ := children_two hlength hfits rfl
      obtain ⟨items, rfl, hitems⟩ := isIn_of_list harguments
      -- the arguments are two steps below the call
      refine .call hp (hsingle (by simp) hcallee) fun t ht => ?_
      have hsize : (Tree.list items).size <
          (Tree.node .callExpression [callee, .list items]).size := size_lt_node (by simp)
      exact ih t (Nat.lt_trans (size_lt_list ht) hsize) (good_list (hbelow _ (by simp)) t ht)
        (hitems t ht)
    | staticMemberExpression property =>
      obtain ⟨object, rfl, hobject⟩ := children_one hlength hfits rfl
      exact .member hp (hsingle (by simp) hobject)
    | assignmentExpression =>
      obtain ⟨binding, value, rfl, hbinding, hvalue⟩ := children_two hlength hfits rfl
      exact .assignment hp (hsingle (by simp) hbinding) (hsingle (by simp) hvalue)
    | identifierExpression name =>
      obtain rfl := children_zero hlength rfl
      exact .identifier hp
    | numericLiteral x =>
      obtain rfl := children_zero hlength rfl
      exact .number hp
    | stringLiteral t =>
      obtain rfl := children_zero hlength rfl
      exact .string hp
    | booleanLiteral b =>
      obtain rfl := children_zero hlength rfl
      exact .boolean hp
    | nullLiteral =>
      obtain rfl := children_zero hlength rfl
      exact .null hp
    | _ => exact absurd hin Bool.false_ne_true
  · simp [Tree.isIn, Tree.kind?] at hin

/-- A binding that is well-formed is a name. -/
theorem binding_of_good (t : Tree) (h : t.Good p) (hin : t.isIn .binding = true) :
    Binding p t := by
  rcases t with _ | ⟨label, children⟩ | items
  · simp [Tree.isIn, Tree.kind?] at hin
  · obtain ⟨⟨-, hlength, -⟩, hp, -⟩ := good_node h
    cases label with
    | bindingIdentifier name =>
      obtain rfl := children_zero hlength rfl
      exact .identifier hp
    | _ => exact absurd hin Bool.false_ne_true
  · simp [Tree.isIn, Tree.kind?] at hin

/-- Only one label has the kind of a block, and only one that of a function body. -/
theorem label_of_isIn {label : Label} {children : List Tree} :
    ((Tree.node label children).isIn .block = true → label = .block) ∧
    ((Tree.node label children).isIn .functionBody = true → label = .functionBody) := by
  cases label <;> constructor <;> intro hin <;> first | rfl | exact absurd hin Bool.false_ne_true

/-- A node that does nothing but hold statements. -/
theorem statements_of_good {label : Label} {children : List Tree} {name : String}
    (h : (Tree.node label children).Good p) (hfields : label.fields = [.list name .statement]) :
    p label children = true ∧ ∃ items, children = [.list items] ∧
      ∀ t ∈ items, t.Good p ∧ t.isIn .statement = true ∧
        t.size < (Tree.node label children).size := by
  obtain ⟨⟨-, hlength, hfits⟩, hp, hbelow⟩ := good_node h
  obtain ⟨a, rfl, ha⟩ := children_one hlength hfits hfields
  obtain ⟨items, rfl, hitems⟩ := isIn_of_list ha
  refine ⟨hp, items, rfl, fun t ht => ⟨good_list (hbelow _ (by simp)) t ht, hitems t ht, ?_⟩⟩
  exact Nat.lt_trans (size_lt_list ht) (size_lt_node (by simp))

/-- A statement that is well-formed has one of the shapes. -/
theorem statement_of_good (t : Tree) (h : t.Good p) (hin : t.isIn .statement = true) :
    Statement p t := by
  induction t using (measure Tree.size).wf.induction with
  | _ t ih =>
  rcases t with _ | ⟨label, children⟩ | items
  · simp [Tree.isIn, Tree.kind?] at hin
  · obtain ⟨⟨-, hlength, hfits⟩, hp, hbelow⟩ := good_node h
    have hexpression : ∀ {name : String} {u : Tree}, u ∈ children →
        (Field.single name .expression).admits .full u = true → Expression p u :=
      fun hmem hadmits => expression_of_good _ (hbelow _ hmem) (isIn_of_single hadmits)
    have hstatement : ∀ {u : Tree}, u ∈ children → u.isIn .statement = true → Statement p u :=
      fun hmem hin => ih _ (size_lt_node hmem) (hbelow _ hmem) hin
    cases label with
    | blockStatement =>
      obtain ⟨block, rfl, hblock⟩ := children_one hlength hfits rfl
      have hin := isIn_of_single hblock
      rcases block with _ | ⟨label, children⟩ | items
      · simp [Tree.isIn, Tree.kind?] at hin
      · obtain rfl := label_of_isIn.1 hin
        have hgood := hbelow (.node .block children) (by simp)
        obtain ⟨hinner, items, rfl, hitems⟩ := statements_of_good hgood rfl
        refine .block hp hinner fun t ht => ?_
        obtain ⟨hgoodItem, hinItem, hsize⟩ := hitems t ht
        exact ih t (Nat.lt_trans hsize (size_lt_node (by simp))) hgoodItem hinItem
      · simp [Tree.isIn, Tree.kind?] at hin
    | expressionStatement =>
      obtain ⟨e, rfl, he⟩ := children_one hlength hfits rfl
      exact .expression hp (hexpression (by simp) he)
    | returnStatement =>
      obtain ⟨e, rfl, he⟩ := children_one hlength hfits rfl
      rcases isIn_of_maybe he with rfl | hin
      · exact .returnNothing hp
      · exact .returnValue hp (expression_of_good _ (hbelow _ (by simp)) hin)
    | throwStatement =>
      obtain ⟨e, rfl, he⟩ := children_one hlength hfits rfl
      exact .throwing hp (hexpression (by simp) he)
    | breakStatement target =>
      obtain rfl := children_zero hlength rfl
      exact .breaking hp
    | continueStatement target =>
      obtain rfl := children_zero hlength rfl
      exact .continuing hp
    | emptyStatement =>
      obtain rfl := children_zero hlength rfl
      exact .empty hp
    | ifStatement =>
      obtain ⟨test, consequent, alternate, rfl, htest, hconsequent, halternate⟩ :=
        children_three hlength hfits rfl
      have hthen := hstatement (by simp) (isIn_of_single hconsequent)
      rcases isIn_of_maybe halternate with rfl | hin
      · exact .ifThen hp (hexpression (by simp) htest) hthen
      · exact .ifElse hp (hexpression (by simp) htest) hthen (hstatement (by simp) hin)
    | whileStatement =>
      obtain ⟨test, body, rfl, htest, hbody⟩ := children_two hlength hfits rfl
      exact .loop hp (hexpression (by simp) htest) (hstatement (by simp) (isIn_of_single hbody))
    | functionDeclaration name =>
      obtain ⟨params, body, rfl, hparams, hbody⟩ := children_two hlength hfits rfl
      obtain ⟨bindings, rfl, hbindings⟩ := isIn_of_list hparams
      have hin := isIn_of_single hbody
      rcases body with _ | ⟨label, children⟩ | items
      · simp [Tree.isIn, Tree.kind?] at hin
      · obtain rfl := label_of_isIn.2 hin
        have hgood := hbelow (.node .functionBody children) (by simp)
        obtain ⟨hinner, items, rfl, hitems⟩ := statements_of_good hgood rfl
        refine .function hp hinner (fun t ht => ?_) fun t ht => ?_
        · exact binding_of_good t (good_list (hbelow _ (by simp)) t ht) (hbindings t ht)
        · obtain ⟨hgoodItem, hinItem, hsize⟩ := hitems t ht
          exact ih t (Nat.lt_trans hsize (size_lt_node (by simp))) hgoodItem hinItem
      · simp [Tree.isIn, Tree.kind?] at hin
    | _ => exact absurd hin Bool.false_ne_true
  · simp [Tree.isIn, Tree.kind?] at hin

/-! ## What the shapes keep -/

/-- Expressions belong to their category. -/
theorem Expression.isIn {t : Tree} (h : Expression p t) : t.isIn .expression = true := by
  cases h <;> rfl

theorem Expression.isMissing {t : Tree} (h : Expression p t) : t.isMissing = false := by
  cases h <;> rfl

theorem Statement.isMissing {t : Tree} (h : Statement p t) : t.isMissing = false := by
  cases h <;> rfl

/-- A condition that holds for the labels of expressions holds at every node of one. -/
theorem Expression.allNodes {t : Tree} (h : Expression p t)
    (hq : ∀ label children, label.kind.isExpression = true → p label children = true →
      q label children = true) : t.allNodes q = true := by
  induction h with
  | identifier h | number h | string h | boolean h | null h =>
    exact allNodes_node.mpr ⟨hq _ _ rfl h, by simp⟩
  | unary _ h _ ih | member h _ ih => exact allNodes_node.mpr ⟨hq _ _ rfl h, by simpa using ih⟩
  | binary h _ _ ihleft ihright =>
    exact allNodes_node.mpr ⟨hq _ _ rfl h, by simpa using ⟨ihleft, ihright⟩⟩
  | assignment h _ _ ihbinding ihvalue =>
    exact allNodes_node.mpr ⟨hq _ _ rfl h, by simpa using ⟨ihbinding, ihvalue⟩⟩
  | conditional h _ _ _ ihtest ihconsequent ihalternate =>
    exact allNodes_node.mpr ⟨hq _ _ rfl h, by simpa using ⟨ihtest, ihconsequent, ihalternate⟩⟩
  | call h _ _ ihcallee iharguments =>
    refine allNodes_node.mpr ⟨hq _ _ rfl h, ?_⟩
    simpa using ⟨ihcallee, allNodes_list.mpr iharguments⟩

end ScriptSimplifier
