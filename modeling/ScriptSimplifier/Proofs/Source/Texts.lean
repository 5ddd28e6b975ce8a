import ScriptSimplifier.Proofs.Syntax.Shapes

/-!
# Source texts of the shapes

Every expression and every statement with operators has a source text, and the text of each shape is
put together from the texts of its parts.
-/

namespace ScriptSimplifier

variable {p : Label → List Tree → Bool}

/-- The source text of an element, empty if there is none. -/
def Tree.text (t : Tree) : Text := t.source?.getD []

/-- The source text of an expression at a place that requires a level. -/
def Tree.textAt (required : Level) (t : Tree) : Text :=
  if t.level < required then Source.parenthesize t.text else t.text

/-- Whether a blank separates a unary operator from the text of its operand. -/
def Source.isApart (operator text : Text) : Bool :=
  operator.getLast?.any fun last => Text.isLetter last ||
    ((last == Text.ascii '-' || last == Text.ascii '+') && text.head? == some last)

/-- A unary operation, from the text of its operand. -/
def Source.unary (operator text : Text) : Text :=
  operator ++ (if Source.isApart operator text then Text.ascii ' ' :: text else text)

namespace Source

/-- A binary operator with the blanks around it. -/
def operatorText (op : Text) : Text :=
  (if op = Text.ofString "," then [] else Text.ofString " ") ++ op ++ Text.ofString " "

theorem binary_eq (op left right : Text) :
    binary op left right = left ++ (operatorText op ++ right) := by
  have hblank : Text.ofString " " = [Text.ascii ' '] := by decide
  have hnone : Text.ofString "" = [] := by decide
  rw [binary, operatorText]
  split <;> simp [hblank, hnone]

end Source

theorem source?_eq_text {t : Tree} (h : t.source?.isSome) : t.source? = some t.text := by
  obtain ⟨text, htext⟩ := Option.isSome_iff_exists.mp h
  rw [Tree.text, htext, Option.getD_some]

/-- An element that is there, at a place that requires a level. -/
theorem operand_eq_textAt {t : Tree} (h : t.isMissing = false) (required : Level) :
    Source.operand required t t.text = t.textAt required := by
  simp [Source.operand, Tree.textAt, h]

theorem textAt_sequence (t : Tree) : t.textAt Level.sequence = t.text := by
  simp [Tree.textAt, Level.sequence]

theorem unary?_eq {operator : Text} (h : operator ≠ []) (t : Tree) :
    Source.unary? operator t t.text = some (Source.unary operator (t.textAt Level.unary)) := by
  obtain ⟨last, hlast⟩ : ∃ last, operator.getLast? = some last :=
    ⟨_, List.getLast?_eq_some_getLast h⟩
  simp [Source.unary?, Source.unary, Source.isApart, Tree.textAt, hlast]

/-! ## Expressions -/

theorem argumentSources?_eq {arguments : List Tree}
    (h : ∀ t ∈ arguments, Expression p t) (hsource : ∀ t ∈ arguments, t.source?.isSome) :
    argumentSources? arguments = some (arguments.map (Tree.textAt Level.assignment)) := by
  induction arguments with
  | nil => rfl
  | cons t rest ih =>
    obtain ⟨hhere, hrest⟩ := List.forall_mem_cons.mp h
    obtain ⟨hsourceHere, hsourceRest⟩ := List.forall_mem_cons.mp hsource
    simp [argumentSources?, hhere.isIn, source?_eq_text hsourceHere, ih hrest hsourceRest,
      operand_eq_textAt hhere.isMissing]

theorem Expression.source?_isSome {t : Tree} (h : Expression p t) : t.source?.isSome := by
  induction h with
  | identifier | number | string | boolean | null => rfl
  | binary _ _ _ ihleft ihright | assignment _ _ _ ihleft ihright =>
    simp [Tree.source?, source?_eq_text ihleft, source?_eq_text ihright]
  | unary hoperator _ _ ih =>
    simp [Tree.source?, source?_eq_text ih, unary?_eq hoperator]
  | member _ _ ih => simp [Tree.source?, source?_eq_text ih]
  | conditional _ _ _ _ ihtest ihconsequent ihalternate =>
    simp [Tree.source?, source?_eq_text ihtest, source?_eq_text ihconsequent,
      source?_eq_text ihalternate]
  | call _ _ harguments ihcallee iharguments =>
    simp [Tree.source?, source?_eq_text ihcallee, argumentSources?_eq harguments iharguments]

theorem Expression.source?_eq {t : Tree} (h : Expression p t) : t.source? = some t.text :=
  source?_eq_text h.source?_isSome

/-- The text of an expression at the place of an operand. -/
theorem Expression.operand {t : Tree} (h : Expression p t) (required : Level) :
    Source.operand required t t.text = t.textAt required :=
  operand_eq_textAt h.isMissing required

section

variable {left right test consequent alternate callee object binding value : Tree}
  {operator property : Text} {arguments : List Tree}

theorem text_binary (hleft : Expression p left) (hright : Expression p right) :
    (Tree.node (.binaryExpression operator) [left, right]).text =
      Source.binary operator (left.textAt (Level.binary operator))
        (right.textAt (Level.binary operator + 1)) := by
  rw [Tree.text]
  simp [Tree.source?, hleft.source?_eq, hright.source?_eq, hleft.operand, hright.operand]

theorem text_unary (hoperator : operator ≠ []) (h : Expression p object) :
    (Tree.node (.unaryExpression operator) [object]).text =
      Source.unary operator (object.textAt Level.unary) := by
  rw [Tree.text]
  simp [Tree.source?, h.source?_eq, unary?_eq hoperator]

theorem text_conditional (htest : Expression p test) (hconsequent : Expression p consequent)
    (halternate : Expression p alternate) :
    (Tree.node .conditionalExpression [test, consequent, alternate]).text =
      test.textAt Level.logicalOr ++ Text.ofString " ? " ++
        consequent.textAt Level.assignment ++ Text.ofString " : " ++
        alternate.textAt Level.assignment := by
  rw [Tree.text]
  simp [Tree.source?, htest.source?_eq, hconsequent.source?_eq, halternate.source?_eq,
    htest.operand, hconsequent.operand, halternate.operand]

theorem text_call (hcallee : Expression p callee) (harguments : ∀ t ∈ arguments, Expression p t) :
    (Tree.node .callExpression [callee, .list arguments]).text =
      callee.textAt Level.call ++ Source.parenthesize
        (Text.join ", " (arguments.map (Tree.textAt Level.assignment))) := by
  rw [Tree.text]
  simp [Tree.source?, hcallee.source?_eq, hcallee.operand,
    argumentSources?_eq harguments fun t ht => (harguments t ht).source?_isSome]

theorem text_member (h : Expression p object) :
    (Tree.node (.staticMemberExpression property) [object]).text =
      object.textAt Level.call ++ Text.ascii '.' :: property := by
  rw [Tree.text]
  simp [Tree.source?, h.source?_eq, h.operand]

theorem text_assignment (hbinding : Expression p binding) (hvalue : Expression p value) :
    (Tree.node .assignmentExpression [binding, value]).text =
      binding.textAt Level.call ++ Text.ofString " = " ++ value.textAt Level.assignment := by
  rw [Tree.text]
  simp [Tree.source?, hbinding.source?_eq, hvalue.source?_eq, hbinding.operand, hvalue.operand]

end

/-! ## Statements -/

theorem sources?_eq {items : List Tree} (h : ∀ t ∈ items, t.source?.isSome) :
    sources? items = some (items.map Tree.text) := by
  induction items with
  | nil => rfl
  | cons t rest ih =>
    obtain ⟨hhere, hrest⟩ := List.forall_mem_cons.mp h
    simp [sources?, source?_eq_text hhere, ih hrest]

theorem Binding.source?_isSome {t : Tree} (h : Binding p t) : t.source?.isSome := by
  cases h
  rfl

theorem Statement.source?_isSome {t : Tree} (h : Statement p t) : t.source?.isSome := by
  induction h with
  | block _ _ _ ih => simp [Tree.source?, sources?_eq ih]
  | expression _ he | returnValue _ he | throwing _ he => simp [Tree.source?, he.source?_eq]
  | returnNothing | breaking | continuing | empty => rfl
  | ifThen _ htest _ ih => simp [Tree.source?, htest.source?_eq, source?_eq_text ih]
  | ifElse _ htest _ _ ihconsequent ihalternate =>
    simp [Tree.source?, htest.source?_eq, source?_eq_text ihconsequent,
      source?_eq_text ihalternate]
  | loop _ htest _ ih => simp [Tree.source?, htest.source?_eq, source?_eq_text ih]
  | function _ _ hparams _ ih =>
    simp [Tree.source?, sources?_eq fun t ht => (hparams t ht).source?_isSome, sources?_eq ih]

theorem Statement.source?_eq {t : Tree} (h : Statement p t) : t.source? = some t.text :=
  source?_eq_text h.source?_isSome

section

variable {e test consequent alternate body : Tree} {name : Text} {statements params : List Tree}

theorem text_holder (h : ∀ t ∈ statements, Statement p t) :
    (Tree.node .block [.list statements]).text = Source.braced (statements.map Tree.text) ∧
    (Tree.node .functionBody [.list statements]).text =
      Source.braced (statements.map Tree.text) ∧
    (Tree.node .script [.list statements]).text =
      Text.join " " (statements.map Tree.text) := by
  have hsources := sources?_eq fun t ht => (h t ht).source?_isSome
  refine ⟨?_, ?_, ?_⟩ <;> rw [Tree.text] <;> simp [Tree.source?, hsources]

theorem text_blockStatement (h : ∀ t ∈ statements, Statement p t) :
    (Tree.node .blockStatement [.node .block [.list statements]]).text =
      Source.braced (statements.map Tree.text) := by
  rw [Tree.text]
  simp [Tree.source?, sources?_eq fun t ht => (h t ht).source?_isSome, Tree.isMissing]

theorem text_expressionStatement (h : Expression p e) :
    (Tree.node .expressionStatement [e]).text = e.text ++ [Text.ascii ';'] := by
  rw [Tree.text]
  simp [Tree.source?, h.source?_eq, h.operand, textAt_sequence]

theorem text_return (h : Expression p e) :
    (Tree.node .returnStatement [e]).text =
      Text.ofString "return " ++ e.text ++ [Text.ascii ';'] := by
  rw [Tree.text]
  simp [Tree.source?, h.source?_eq, h.isMissing]

theorem text_throw (h : Expression p e) :
    (Tree.node .throwStatement [e]).text =
      Text.ofString "throw " ++ e.text ++ [Text.ascii ';'] := by
  rw [Tree.text]
  simp [Tree.source?, h.source?_eq, h.operand, textAt_sequence]

theorem text_ifThen (htest : Expression p test) (hconsequent : Statement p consequent) :
    (Tree.node .ifStatement [test, consequent, .missing]).text =
      Text.ofString "if (" ++ test.text ++ Text.ofString ") " ++ consequent.text := by
  have hnone : Tree.missing.isMissing = true := rfl
  rw [Tree.text]
  simp [Tree.source?, htest.source?_eq, hconsequent.source?_eq, Source.conditional, htest.operand,
    textAt_sequence, Source.substatement, hconsequent.isMissing, hnone]

theorem text_ifElse (htest : Expression p test) (hconsequent : Statement p consequent)
    (halternate : Statement p alternate) :
    (Tree.node .ifStatement [test, consequent, alternate]).text =
      Text.ofString "if (" ++ test.text ++ Text.ofString ") " ++
        (if Source.isOpenIf consequent then
          Text.ofString "\x7b " ++ consequent.text ++ Text.ofString " \x7d"
        else consequent.text) ++ Text.ofString " else " ++ alternate.text := by
  rw [Tree.text]
  simp [Tree.source?, htest.source?_eq, hconsequent.source?_eq, halternate.source?_eq,
    Source.conditional, htest.operand, textAt_sequence, Source.substatement,
    hconsequent.isMissing, halternate.isMissing]

theorem text_while (htest : Expression p test) (hbody : Statement p body) :
    (Tree.node .whileStatement [test, body]).text =
      Text.ofString "while (" ++ test.text ++ Text.ofString ") " ++ body.text := by
  rw [Tree.text]
  simp [Tree.source?, htest.source?_eq, hbody.source?_eq, htest.operand, textAt_sequence,
    Source.substatement, hbody.isMissing]

theorem text_function (hparams : ∀ t ∈ params, Binding p t)
    (hstatements : ∀ t ∈ statements, Statement p t) :
    (Tree.node (.functionDeclaration name)
      [.list params, .node .functionBody [.list statements]]).text =
      Text.ofString "function " ++ name ++ Text.ascii '(' ::
        Text.join ", " (params.map Tree.text) ++ Text.ofString ") " ++
        Source.braced (statements.map Tree.text) := by
  rw [Tree.text]
  simp [Tree.source?, sources?_eq fun t ht => (hparams t ht).source?_isSome,
    sources?_eq fun t ht => (hstatements t ht).source?_isSome, Tree.isMissing]

end

end ScriptSimplifier
