import ScriptSimplifier.Proofs.Source.Spelling
import ScriptSimplifier.Proofs.Syntax.Outline

/-!
# Trees are recovered from their source and their outline

Neither the source nor the outline of a tree determines it, but both together do.  Reading an
expression off the front of a text, the outline says which kind of expression comes next; what is
not known is in how many parentheses it starts, because that depends on operators further behind.
So the statement that carries the proof counts the opening parentheses (`Recovers`): they add up to
the same number on either side, and the closing ones are told apart by what follows an operand on
the left, which never closes a parenthesis.
-/

namespace ScriptSimplifier

open Text (Tells Stops Starts)
open Source (Follows Solid)

/-! ## Parentheses -/

/-- The number of parentheses around an expression at a place that requires a level. -/
def Tree.parens (least : Level) (t : Tree) : Nat := if t.level < least then 1 else 0

namespace Source

/-- Opening parentheses. -/
def opens (n : Nat) : Text := List.replicate n (Text.ascii '(')

/-- Closing parentheses. -/
def closes (n : Nat) : Text := List.replicate n (Text.ascii ')')

theorem textAt_eq (least : Level) (t : Tree) :
    t.textAt least = opens (t.parens least) ++ t.text ++ closes (t.parens least) := by
  rw [Tree.textAt, Tree.parens]
  split <;> simp [opens, closes, parenthesize]

theorem opens_add (n k : Nat) : opens (n + k) = opens n ++ opens k :=
  (List.replicate_append_replicate ..).symm

/-- As many repetitions of a byte, if something else follows. -/
theorem replicate_tells {b : UInt8} {n m : Nat} {u v : Text} (hu : Stops (· == b) u)
    (hv : Stops (· == b) v) (heq : List.replicate n b ++ u = List.replicate m b ++ v) :
    n = m ∧ u = v := by
  have hall : ∀ k, ∀ c ∈ List.replicate k b, (c == b) = true := fun k c hc => by
    simp [(List.mem_replicate.mp hc).2]
  obtain ⟨hsame, hrest⟩ := Text.tells_class (hall n) (hall m) hu hv heq
  exact ⟨by simpa using congrArg List.length hsame, hrest⟩

/-- What may follow an operand on the left: what follows an expression inside of another one. -/
def Continues (u : Text) : Prop := Follows u ∧ Stops (· == Text.ascii ')') u

theorem continues_append {t : Text}
    (h : t.head?.any (fun b => isEnd b && b != Text.ascii ')') = true) (rest : Text) :
    Continues (t ++ rest) := by
  cases t with
  | nil => simp at h
  | cons b t =>
    obtain ⟨hend, hclosing⟩ : isEnd b = true ∧ b ≠ Text.ascii ')' := by simpa using h
    exact ⟨.inl hend, Text.stops_cons (by simpa using hclosing) _⟩

theorem continues_operator (op rest : Text) : Continues (operatorText op ++ rest) := by
  rw [operatorText, List.append_assoc, List.append_assoc]
  split
  · rename_i hcomma
    subst hcomma
    exact continues_append (t := Text.ofString ",") (by decide) _
  · exact continues_append (by decide) _

theorem continues_point {name : Text} (h : SExpression.isPlainName name = true) (rest : Text) :
    Continues (Text.ascii '.' :: (name ++ rest)) := by
  obtain ⟨b, more, rfl, hb, -⟩ := Grammar.starts_name h
  exact ⟨.inr ⟨rfl, hb⟩, Text.stops_cons (by decide) _⟩

theorem follows_closes {u : Text} (h : Follows u) (n : Nat) : Follows (closes n ++ u) := by
  cases n with
  | zero => exact h
  | succ n => exact follows_cons (by decide) _

/-! ## Fronts -/

/-- A text that starts with neither a blank nor a parenthesis. -/
abbrev Bare (t : Text) : Prop := t.Starts fun b => b ≠ Text.ascii ' ' ∧ b ≠ Text.ascii '('

theorem bare_number (x : Double) : Bare (Label.numberText x) := by
  have hall : ∀ b, (Text.isIdentifierPart b || b == Text.ascii '+' || b == Text.ascii '-' ||
      b == Text.ascii '.') = true → b ≠ Text.ascii ' ' ∧ b ≠ Text.ascii '(' := by
    intro b hb
    let numeric (c : UInt8) : Bool := Text.isIdentifierPart c || c == Text.ascii '+' ||
      c == Text.ascii '-' || c == Text.ascii '.'
    have hclass : numeric b = true := hb
    exact ⟨SExpression.ne_of_class hclass (by decide), SExpression.ne_of_class hclass (by decide)⟩
  have hne : Label.numberText x ≠ [] := by
    cases x with
    | nan => decide
    | inf negative => cases negative <;> decide
    | finite negative code =>
      obtain ⟨b, more, htext, -⟩ := (SExpression.lexes_number negative code).1
      simp [htext]
  obtain ⟨b, more, htext⟩ := List.exists_cons_of_ne_nil hne
  refine ⟨b, more, htext, hall b ?_⟩
  have hfront := numberFront_numberText x
  rw [htext, numberFront] at hfront
  split at hfront
  · rename_i hb
    simp only [Bool.or_eq_true, Bool.and_eq_true] at hb ⊢
    exact hb.imp_right And.left
  · simp at hfront

theorem bare_name {name : Text} (h : SExpression.isPlainName name = true) : Bare name :=
  (Grammar.starts_name h).mono fun _ hb => hb.2.2

theorem bare_unary {op : Text} (h : op ∈ Grammar.unaryOperators) (text : Text) :
    Bare (unary op text) :=
  (Grammar.starts_unary h text).mono fun _ hb => hb.2

theorem bare_opens {t t' u v : Text} {n m : Nat} (ht : Bare t) (ht' : Bare t')
    (heq : opens n ++ (t ++ u) = opens m ++ (t' ++ v)) : n = m ∧ t ++ u = t' ++ v := by
  have hstops : ∀ {t u : Text}, Bare t → Stops (· == Text.ascii '(') (t ++ u) := by
    rintro _ u ⟨b, more, rfl, -, hb⟩
    exact Text.stops_cons (by simpa using hb) _
  exact replicate_tells (hstops ht) (hstops ht') heq

theorem Bare.solid {t : Text} (h : Bare t) : Solid t := Starts.mono h fun _ hb => hb.1

theorem solid_textAt {e : Tree} (h : Solid e.text) (least : Level) : Solid (e.textAt least) := by
  rw [Tree.textAt]
  split
  · exact ⟨_, _, rfl, by decide⟩
  · exact h

end Source

open Source

/-- No expression starts with a blank. -/
theorem Expression.solid {e : Tree} (h : Expression isSpelled e) : Solid e.text := by
  induction h with
  | identifier h => exact (bare_name h).solid
  | @number x h => exact (bare_number x).solid
  | string h => exact ⟨_, _, rfl, by decide⟩
  | @boolean b h => cases b <;> exact ⟨_, _, rfl, by decide⟩
  | null h => exact ⟨_, _, rfl, by decide⟩
  | unary hne h hoperand ih =>
    rw [text_unary hne hoperand]
    exact (bare_unary (List.contains_iff_mem.mp h) _).solid
  | binary h hleft hright ihleft ihright =>
    rw [text_binary hleft hright, Source.binary_eq]
    exact (solid_textAt ihleft _).append _
  | conditional h htest hconsequent halternate ihtest =>
    rw [text_conditional htest hconsequent halternate]
    simp only [List.append_assoc]
    exact (solid_textAt ihtest _).append _
  | call h hcallee harguments ihcallee =>
    rw [text_call hcallee harguments]
    exact (solid_textAt ihcallee _).append _
  | member h hobject ih =>
    rw [text_member hobject]
    exact (solid_textAt ih _).append _
  | assignment h hbinding hvalue ihbinding =>
    rw [text_assignment hbinding hvalue, List.append_assoc]
    exact (solid_textAt ihbinding _).append _

/-! ## Expressions -/

theorem outline_node {label label' : Label} {children children' : List Tree}
    (h : (Tree.node label children).outline = (Tree.node label' children').outline) :
    label.kind = label'.kind ∧ outlineAll children = outlineAll children' := by
  rw [Tree.outline, Tree.outline] at h
  obtain ⟨hlabel, hchildren⟩ := Tree.node.inj h
  exact ⟨blank_inj hlabel, hchildren⟩

/-- Elements in the same places of two rows with the same outlines. -/
theorem forall₂_of_outline {R : Tree → Tree → Prop} {ts us : List Tree}
    (h : outlineAll ts = outlineAll us)
    (hstep : ∀ t ∈ ts, ∀ u ∈ us, t.outline = u.outline → R t u) : List.Forall₂ R ts us := by
  induction ts generalizing us with
  | nil =>
    cases us with
    | nil => exact .nil
    | cons u us => simp [outlineAll] at h
  | cons t ts ih =>
    cases us with
    | nil => simp [outlineAll] at h
    | cons u us =>
      rw [outlineAll, outlineAll] at h
      obtain ⟨hhere, hbehind⟩ := List.cons.inj h
      exact .cons (hstep t (by simp) u (by simp) hhere) (ih hbehind fun t ht u hu =>
        hstep t (List.mem_cons_of_mem _ ht) u (List.mem_cons_of_mem _ hu))

/-- An expression behind opening parentheses is recovered from its text, and so is their number. -/
def Recovers (x : Tree) : Prop :=
  ∀ ⦃y : Tree⦄, Expression isSpelled y → x.outline = y.outline → ∀ ⦃n m : Nat⦄ ⦃u v : Text⦄,
    Follows u → Follows v → opens n ++ (x.text ++ u) = opens m ++ (y.text ++ v) →
      n = m ∧ x = y ∧ u = v

/-- An operand on the left: the place of its parentheses is not known from what is before it. -/
theorem Recovers.left {x y : Tree} (hx : Recovers x) (hy : Expression isSpelled y)
    (hout : x.outline = y.outline) {least least' : Level} {n m : Nat} {u v : Text}
    (hu : Continues u) (hv : Continues v)
    (heq : opens n ++ (x.textAt least ++ u) = opens m ++ (y.textAt least' ++ v)) :
    n = m ∧ x = y ∧ u = v := by
  have hparens : opens (n + x.parens least) ++ (x.text ++ (closes (x.parens least) ++ u)) =
      opens (m + y.parens least') ++ (y.text ++ (closes (y.parens least') ++ v)) := by
    simpa [textAt_eq, opens_add] using heq
  obtain ⟨hcount, rfl, hclose⟩ :=
    hx hy hout (follows_closes hu.1 _) (follows_closes hv.1 _) hparens
  obtain ⟨hsame, rfl⟩ := replicate_tells hu.2 hv.2 hclose
  exact ⟨by omega, rfl, rfl⟩

/-- An operand elsewhere. -/
theorem Recovers.operand {x y : Tree} (hx : Recovers x) (hy : Expression isSpelled y)
    (hout : x.outline = y.outline) (least : Level) : Tells Follows (Tree.textAt least) x y := by
  intro u v hu hv heq
  have hparens : opens (x.parens least) ++ (x.text ++ (closes (x.parens least) ++ u)) =
      opens (y.parens least) ++ (y.text ++ (closes (y.parens least) ++ v)) := by
    simpa [textAt_eq] using heq
  obtain ⟨-, rfl, hclose⟩ := hx hy hout (follows_closes hu _) (follows_closes hv _) hparens
  exact ⟨rfl, List.append_cancel_left hclose⟩

/-- Arguments of calls, as many on either side. -/
theorem arguments_tell {xs ys : List Tree}
    (h : List.Forall₂ (Tells Follows (Tree.textAt Level.assignment)) xs ys) :
    Tells Follows (fun ts => Text.join ", " (ts.map (Tree.textAt Level.assignment))) xs ys :=
  Text.join_tells (fun _ => Source.follows_append (by decide) _) h

/-- The texts of truth values. -/
theorem boolean_tells (b b' : Bool) :
    Tells (fun _ => True) (fun b => (Tree.node (.booleanLiteral b) []).text) b b' := by
  have hfree : ∀ a ∈ [true, false], ∀ b ∈ [true, false],
      (Tree.node (.booleanLiteral a) []).text.isPrefixOf (Tree.node (.booleanLiteral b) []).text
        = true → a = b := by
    decide
  exact Text.tells_prefixFree hfree (by cases b <;> simp) (by cases b' <;> simp)

/-- A leaf is recovered if the leaves with its outline start bare and are told apart by their
texts. -/
theorem Recovers.of_bare {x : Tree} (hx : Bare x.text)
    (hleaf : ∀ ⦃y : Tree⦄, Expression isSpelled y → x.outline = y.outline →
      Bare y.text ∧ Tells Follows Tree.text x y) : Recovers x := by
  intro y hy hout n m u v hu hv heq
  obtain ⟨hbare, htells⟩ := hleaf hy hout
  obtain ⟨hcount, hbehind⟩ := bare_opens hx hbare heq
  obtain ⟨hsame, hrest⟩ := htells hu hv hbehind
  exact ⟨hcount, hsame, hrest⟩

/-! One lemma for each kind of expression follows.  Two expressions with the same outline have the
same shape, so in each of them all cases but one are empty. -/

theorem Recovers.identifier {name : Text} (h : isSpelled (.identifierExpression name) [] = true) :
    Recovers (.node (.identifierExpression name) []) := by
  refine .of_bare (bare_name h) fun y hy hout => ?_
  cases hy with
  | identifier h' =>
    refine ⟨bare_name h', fun u v hu hv heq => ?_⟩
    obtain ⟨rfl, rfl⟩ := name_tells h h' hu.stops hv.stops heq
    exact ⟨rfl, rfl⟩
  | _ => exact absurd (outline_node hout).1 (by simp [Label.kind])

theorem Recovers.number (x : Double) : Recovers (.node (.numericLiteral x) []) := by
  refine .of_bare (bare_number x) fun y hy hout => ?_
  cases hy with
  | @number x' _ =>
    refine ⟨bare_number x', fun u v hu hv heq => ?_⟩
    obtain ⟨rfl, rfl⟩ := number_tells x x' hu hv heq
    exact ⟨rfl, rfl⟩
  | _ => exact absurd (outline_node hout).1 (by simp [Label.kind])

theorem Recovers.string (t : Text) : Recovers (.node (.stringLiteral t) []) := by
  refine .of_bare ⟨_, _, rfl, by decide⟩ fun y hy hout => ?_
  cases hy with
  | @string t' _ =>
    refine ⟨⟨_, _, rfl, by decide⟩, fun u v _ _ heq => ?_⟩
    obtain ⟨rfl, rfl⟩ := quote_tells t t' trivial trivial heq
    exact ⟨rfl, rfl⟩
  | _ => exact absurd (outline_node hout).1 (by simp [Label.kind])

theorem Recovers.boolean (b : Bool) : Recovers (.node (.booleanLiteral b) []) := by
  have hbare : ∀ b, Bare (Tree.node (.booleanLiteral b) []).text := by
    intro b
    cases b <;> exact ⟨_, _, rfl, by decide⟩
  refine .of_bare (hbare b) fun y hy hout => ?_
  cases hy with
  | @boolean b' _ =>
    refine ⟨hbare b', fun u v _ _ heq => ?_⟩
    obtain ⟨rfl, rfl⟩ := boolean_tells b b' trivial trivial heq
    exact ⟨rfl, rfl⟩
  | _ => exact absurd (outline_node hout).1 (by simp [Label.kind])

theorem Recovers.null : Recovers (.node .nullLiteral []) := by
  have hbare : Bare (Tree.node .nullLiteral []).text := ⟨_, _, rfl, by decide⟩
  refine .of_bare hbare fun y hy hout => ?_
  cases hy with
  | null _ => exact ⟨hbare, fun u v _ _ heq => ⟨rfl, List.append_cancel_left heq⟩⟩
  | _ => exact absurd (outline_node hout).1 (by simp [Label.kind])

theorem Recovers.binary {op : Text} {left right : Tree}
    (h : isSpelled (.binaryExpression op) [left, right] = true) (hleft : Expression isSpelled left)
    (hright : Expression isSpelled right) (ihleft : Recovers left) (ihright : Recovers right) :
    Recovers (.node (.binaryExpression op) [left, right]) := by
  intro y hy hout n m u v hu hv heq
  cases hy with
  | @binary op' left' right' h' hleft' hright' =>
    obtain ⟨houtLeft, houtRight⟩ :
        left.outline = left'.outline ∧ right.outline = right'.outline := by
      simpa [outlineAll] using (outline_node hout).2
    rw [text_binary hleft hright, text_binary hleft' hright', Source.binary_eq,
      Source.binary_eq] at heq
    simp only [List.append_assoc] at heq
    -- the left operand is known before the level of its place is
    obtain ⟨rfl, rfl, hop⟩ := ihleft.left hleft' houtLeft (continues_operator op _)
      (continues_operator op' _) heq
    obtain ⟨rfl, hoperand⟩ := Source.operator_tells h h' trivial trivial hop
    obtain ⟨rfl, rfl⟩ := ihright.operand hright' houtRight _ hu hv hoperand
    exact ⟨rfl, rfl, rfl⟩
  | _ => exact absurd (outline_node hout).1 (by simp [Label.kind])

theorem Recovers.unary {op : Text} {operand : Tree} (hne : op ≠ [])
    (h : isSpelled (.unaryExpression op) [operand] = true) (hoperand : Expression isSpelled operand)
    (ih : Recovers operand) : Recovers (.node (.unaryExpression op) [operand]) := by
  intro y hy hout n m u v hu hv heq
  cases hy with
  | @unary op' operand' hne' h' hoperand' =>
    have houtOperand : operand.outline = operand'.outline := by
      simpa [outlineAll] using (outline_node hout).2
    have hop := List.contains_iff_mem.mp h
    have hop' := List.contains_iff_mem.mp h'
    rw [text_unary hne hoperand, text_unary hne' hoperand'] at heq
    obtain ⟨rfl, hunary⟩ := bare_opens (bare_unary hop _) (bare_unary hop' _) heq
    -- a keyword is followed by a blank, and no operand starts with one
    obtain ⟨rfl, hbehind⟩ := Source.unary_tells hop hop' (solid_textAt hoperand.solid _)
      (solid_textAt hoperand'.solid _) hunary
    obtain ⟨rfl, rfl⟩ := ih.operand hoperand' houtOperand _ hu hv hbehind
    exact ⟨rfl, rfl, rfl⟩
  | _ => exact absurd (outline_node hout).1 (by simp [Label.kind])

theorem Recovers.conditional {test consequent alternate : Tree}
    (htest : Expression isSpelled test) (hconsequent : Expression isSpelled consequent)
    (halternate : Expression isSpelled alternate) (ihtest : Recovers test)
    (ihconsequent : Recovers consequent) (ihalternate : Recovers alternate) :
    Recovers (.node .conditionalExpression [test, consequent, alternate]) := by
  intro y hy hout n m u v hu hv heq
  cases hy with
  | @conditional test' consequent' alternate' h' htest' hconsequent' halternate' =>
    obtain ⟨houtTest, houtConsequent, houtAlternate⟩ : test.outline = test'.outline ∧
        consequent.outline = consequent'.outline ∧ alternate.outline = alternate'.outline := by
      simpa [outlineAll] using (outline_node hout).2
    rw [text_conditional htest hconsequent halternate,
      text_conditional htest' hconsequent' halternate'] at heq
    simp only [List.append_assoc] at heq
    obtain ⟨rfl, rfl, hquestion⟩ := ihtest.left htest' houtTest
      (continues_append (by decide) _) (continues_append (by decide) _) heq
    obtain ⟨rfl, hcolon⟩ := ihconsequent.operand hconsequent' houtConsequent _
      (Source.follows_append (by decide) _) (Source.follows_append (by decide) _)
      (List.append_cancel_left hquestion)
    obtain ⟨rfl, rfl⟩ := ihalternate.operand halternate' houtAlternate _ hu hv
      (List.append_cancel_left hcolon)
    exact ⟨rfl, rfl, rfl⟩
  | _ => exact absurd (outline_node hout).1 (by simp [Label.kind])

theorem Recovers.call {callee : Tree} {arguments : List Tree} (hcallee : Expression isSpelled callee)
    (harguments : ∀ t ∈ arguments, Expression isSpelled t) (ihcallee : Recovers callee)
    (iharguments : ∀ t ∈ arguments, Recovers t) :
    Recovers (.node .callExpression [callee, .list arguments]) := by
  intro y hy hout n m u v hu hv heq
  cases hy with
  | @call callee' arguments' h' hcallee' harguments' =>
    obtain ⟨houtCallee, houtArguments⟩ : callee.outline = callee'.outline ∧
        outlineAll arguments = outlineAll arguments' := by
      simpa [outlineAll, Tree.outline] using (outline_node hout).2
    rw [text_call hcallee harguments, text_call hcallee' harguments'] at heq
    simp only [Source.parenthesize, List.append_assoc, List.cons_append] at heq
    obtain ⟨rfl, rfl, hopening⟩ := ihcallee.left hcallee' houtCallee
      (continues_append (t := [Text.ascii '(']) (by decide) _)
      (continues_append (t := [Text.ascii '(']) (by decide) _) heq
    -- the outlines give as many arguments on either side
    have hrow := forall₂_of_outline houtArguments fun t ht t' ht' hsame =>
      (iharguments t ht).operand (harguments' t' ht') hsame Level.assignment
    obtain ⟨rfl, hclosing⟩ := arguments_tell hrow (Source.follows_cons (by decide) _)
      (Source.follows_cons (by decide) _) (List.cons.inj hopening).2
    exact ⟨rfl, rfl, (List.cons.inj hclosing).2⟩
  | _ => exact absurd (outline_node hout).1 (by simp [Label.kind])

theorem Recovers.member {property : Text} {object : Tree}
    (h : isSpelled (.staticMemberExpression property) [object] = true)
    (hobject : Expression isSpelled object) (ih : Recovers object) :
    Recovers (.node (.staticMemberExpression property) [object]) := by
  intro y hy hout n m u v hu hv heq
  cases hy with
  | @member property' object' h' hobject' =>
    have houtObject : object.outline = object'.outline := by
      simpa [outlineAll] using (outline_node hout).2
    rw [text_member hobject, text_member hobject'] at heq
    simp only [List.append_assoc, List.cons_append] at heq
    obtain ⟨rfl, rfl, hpoint⟩ :=
      ih.left hobject' houtObject (continues_point h _) (continues_point h' _) heq
    obtain ⟨rfl, rfl⟩ := name_tells h h' hu.stops hv.stops (List.cons.inj hpoint).2
    exact ⟨rfl, rfl, rfl⟩
  | _ => exact absurd (outline_node hout).1 (by simp [Label.kind])

theorem Recovers.assignment {binding value : Tree} (hbinding : Expression isSpelled binding)
    (hvalue : Expression isSpelled value) (ihbinding : Recovers binding) (ihvalue : Recovers value) :
    Recovers (.node .assignmentExpression [binding, value]) := by
  intro y hy hout n m u v hu hv heq
  cases hy with
  | @assignment binding' value' h' hbinding' hvalue' =>
    obtain ⟨houtBinding, houtValue⟩ : binding.outline = binding'.outline ∧
        value.outline = value'.outline := by
      simpa [outlineAll] using (outline_node hout).2
    rw [text_assignment hbinding hvalue, text_assignment hbinding' hvalue'] at heq
    simp only [List.append_assoc] at heq
    obtain ⟨rfl, rfl, hequals⟩ := ihbinding.left hbinding' houtBinding
      (continues_append (by decide) _) (continues_append (by decide) _) heq
    obtain ⟨rfl, rfl⟩ := ihvalue.operand hvalue' houtValue _ hu hv
      (List.append_cancel_left hequals)
    exact ⟨rfl, rfl, rfl⟩
  | _ => exact absurd (outline_node hout).1 (by simp [Label.kind])

theorem Expression.recovers {x : Tree} (hx : Expression isSpelled x) : Recovers x := by
  induction hx with
  | identifier h => exact .identifier h
  | number h => exact .number _
  | string h => exact .string _
  | boolean h => exact .boolean _
  | null h => exact .null
  | binary h hleft hright ihleft ihright => exact .binary h hleft hright ihleft ihright
  | unary hne h hoperand ih => exact .unary hne h hoperand ih
  | conditional h htest hconsequent halternate ihtest ihconsequent ihalternate =>
    exact .conditional htest hconsequent halternate ihtest ihconsequent ihalternate
  | call h hcallee harguments ihcallee iharguments =>
    exact .call hcallee harguments ihcallee iharguments
  | member h hobject ih => exact .member h hobject ih
  | assignment h hbinding hvalue ihbinding ihvalue =>
    exact .assignment hbinding hvalue ihbinding ihvalue

/-- Expressions with the same outline are told apart by their texts. -/
theorem Expression.tells {x y : Tree} (hx : Expression isSpelled x) (hy : Expression isSpelled y)
    (hout : x.outline = y.outline) : Tells Follows Tree.text x y := by
  have hat : Tree.textAt Level.sequence = Tree.text := funext textAt_sequence
  exact hat ▸ hx.recovers.operand hy hout Level.sequence

end ScriptSimplifier
