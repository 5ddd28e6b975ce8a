import ScriptSimplifier.Proofs.Source.Lexing
import ScriptSimplifier.Proofs.Source.Precedence
import ScriptSimplifier.Proofs.Source.Texts

/-!
# Printed expressions are read back

An expression prints at its own rank, and at every place that requires a rank its text, in
parentheses or not, prints at that one (`prints_textAt`).  So the source of an expression is an
expression of the grammar that stands for the tree, and for no other one (`source_reads_back`).
-/

namespace ScriptSimplifier

namespace Grammar

/-! ## Expressions that can be read back -/

/-- A binary operator with a level of its own. -/
def isListed (op : Text) : Bool := Level.ofOperator.any fun entry => Text.ofString entry.1 == op

/-- Operators have a place in the grammar, numbers need no sign, names are names, and no property is
one of a number. -/
def isReadable : Label → List Tree → Bool
  | .binaryExpression op, _ => isListed op
  | .unaryExpression op, _ => unaryOperators.contains op
  | .numericLiteral x, _ =>
    match x with
    | .finite negative _ => !negative
    | _ => false
  | .identifierExpression name, _ => SExpression.isPlainName name && !reserved.contains name
  | .staticMemberExpression property, [object] =>
    SExpression.isPlainName property && object.kind? != some .numericLiteral
  | _, _ => true

/-! ## Operators -/

/-- The printer's levels of binary operators are the ranks of the grammar, and the symbol of an
operator is cut off before a blank. -/
theorem listed_spec {op : Text} (h : isListed op = true) :
    (∃ ops, ladder[Level.binary op]? = some ops ∧ op ∈ ops) ∧
    ((operator op = .word op ∧ SExpression.isPlainName op = true) ∨
      (operator op = .sign op ∧ isPlainSign op = true ∧ Text.ascii ' ' ∉ continuations op)) := by
  have hall : ∀ entry ∈ Level.ofOperator,
      (∃ ops ∈ ladder[Level.binary (Text.ofString entry.1)]?, Text.ofString entry.1 ∈ ops) ∧
      ((operator (Text.ofString entry.1) = .word (Text.ofString entry.1) ∧
          SExpression.isPlainName (Text.ofString entry.1) = true) ∨
        (operator (Text.ofString entry.1) = .sign (Text.ofString entry.1) ∧
          isPlainSign (Text.ofString entry.1) = true ∧
          Text.ascii ' ' ∉ continuations (Text.ofString entry.1))) := by
    decide
  obtain ⟨entry, hentry, heq⟩ := List.any_eq_true.mp h
  obtain rfl : Text.ofString entry.1 = op := by simpa using heq
  obtain ⟨⟨ops, hops, hmem⟩, hsymbol⟩ := hall entry hentry
  exact ⟨⟨ops, hops, hmem⟩, hsymbol⟩

set_option maxRecDepth 2000 in
/-- The symbol of a unary operator, and what continues it. -/
theorem unary_spec {op : Text} (h : op ∈ unaryOperators) :
    (operator op = .word op ∧ SExpression.isPlainName op = true ∧
      op.getLast?.any Text.isLetter = true) ∨
    (operator op = .sign op ∧ isPlainSign op = true ∧ Text.ascii ' ' ∉ continuations op ∧
      ∀ c ∈ continuations op, c = Text.ascii '=' ∨ Source.isApart op [c] = true) := by
  have hall : ∀ op ∈ unaryOperators,
      (operator op = .word op ∧ SExpression.isPlainName op = true ∧
        op.getLast?.any Text.isLetter = true) ∨
      (operator op = .sign op ∧ isPlainSign op = true ∧ Text.ascii ' ' ∉ continuations op ∧
        ∀ c ∈ continuations op, c = Text.ascii '=' ∨ Source.isApart op [c] = true) := by
    decide
  exact hall op h

/-- A text that starts with something else than the sign of assignments. -/
abbrev Begins (text : Text) : Prop := text.Starts (· ≠ Text.ascii '=')

theorem ends_cons {b : UInt8} (h : Text.isIdentifierPart b = false) (hpoint : b ≠ Text.ascii '.')
    (rest : Text) : Numeral.Ends (b :: rest) := by
  intro c hc
  obtain rfl : b = c := by simpa using hc
  exact ⟨h, hpoint⟩

theorem not_continued {s : Text} {b : UInt8} (h : b ∉ continuations s) (rest : Text) :
    ∀ c ∈ (b :: rest).head?, c ∉ continuations s := by
  intro c hc
  obtain rfl : b = c := by simpa using hc
  exact h

/-- A sign that no byte continues. -/
theorem cuts_lone {s : String} (hs : isPlainSign (Text.ofString s) = true)
    (hnone : continuations (Text.ofString s) = []) (rest : Text) :
    Cuts (Text.ofString s) [sign s] rest :=
  cuts_sign hs fun b _ => by simp [hnone]

/-- A sign before a blank, with the blank. -/
theorem cuts_spaced {s : String} (hs : isPlainSign (Text.ofString s) = true)
    (hblank : Text.ascii ' ' ∉ continuations (Text.ofString s)) (rest : Text) :
    Cuts (Text.ofString s ++ Text.ofString " ") [sign s] rest :=
  Cuts.append (cuts_sign hs (not_continued hblank rest)) (cuts_blank rest)

/-- A binary operator, with the blank behind it. -/
theorem cuts_listed {op : Text} (h : isListed op = true) (rest : Text) :
    Cuts (op ++ Text.ofString " ") [operator op] rest := by
  obtain ⟨-, ⟨hsymbol, hname⟩ | ⟨hsymbol, hs, hblank⟩⟩ := listed_spec h
  · rw [hsymbol]
    exact Cuts.append (cuts_word hname (Text.stops_cons (by decide) rest)) (cuts_blank rest)
  · rw [hsymbol]
    exact Cuts.append (cuts_sign hs (not_continued hblank rest)) (cuts_blank rest)

/-- A binary operator with the blanks around it. -/
theorem cuts_operatorText {op : Text} (h : isListed op = true) (rest : Text) :
    Cuts (Source.operatorText op) [operator op] rest := by
  rw [Source.operatorText, List.append_assoc]
  split
  · exact cuts_listed h rest
  · exact Cuts.append (cuts_blank _) (cuts_listed h rest)

theorem ends_operatorText (op rest : Text) :
    Numeral.Ends (Source.operatorText op ++ rest) := by
  rw [Source.operatorText]
  split
  · rename_i hcomma
    subst hcomma
    exact ends_cons (by decide) (by decide) _
  · exact ends_cons (by decide) (by decide) _

/-- A unary operator before its operand. -/
theorem cuts_unary {op text rest : Text} {symbols : List Symbol} (h : op ∈ unaryOperators)
    (hbegins : Begins text) (htext : Cuts text symbols rest) :
    Cuts (Source.unary op text) (operator op :: symbols) rest := by
  have hspaced : Cuts (Text.ascii ' ' :: text) symbols rest := Cuts.append (cuts_blank _) htext
  rw [Source.unary, ← List.singleton_append]
  rcases unary_spec h with ⟨hsymbol, hname, hletter⟩ | ⟨hsymbol, hs, hblank, hcontinues⟩
  · have hapart : Source.isApart op text = true := by
      rw [Source.isApart]
      cases hlast : op.getLast? with
      | none => simp [hlast] at hletter
      | some last => simp_all
    rw [if_pos hapart, hsymbol]
    exact Cuts.append (cuts_word hname (Text.stops_cons (by decide) _)) hspaced
  · rw [hsymbol]
    by_cases hapart : Source.isApart op text = true
    · rw [if_pos hapart]
      exact Cuts.append (cuts_sign hs (not_continued hblank _)) hspaced
    · rw [if_neg hapart]
      obtain ⟨b, more, rfl, hb⟩ := hbegins
      refine Cuts.append (cuts_sign hs (not_continued (fun hmem => ?_) _)) htext
      -- a byte that continues the sign is set apart from it
      rcases hcontinues b hmem with heq | hapart'
      · exact hb heq
      · exact hapart hapart'

/-! ## Printed expressions -/

theorem Derives.lower {m n : Nat} {symbols : List Symbol} {t : Tree} (h : Derives n symbols t)
    (hle : m ≤ n) : Derives m symbols t := by
  induction hle with
  | refl => exact h
  | step _ ih => exact ih h.tighter

/-- A text prints an expression with given symbols at a rank.  Only numbers do not go with a point
behind them. -/
structure Prints (rank : Nat) (text : Text) (t : Tree) (symbols : List Symbol) : Prop where
  derives : Derives rank symbols t
  begins : Begins text
  cuts : ∀ rest, Numeral.Ends rest → Cuts text symbols rest
  pointed : leftHand ≤ rank → t.kind? ≠ some .numericLiteral →
    ∀ rest, Text.Stops Text.isIdentifierPart rest → Cuts text symbols rest

/-- What is not tight enough for an object is never before a point. -/
theorem prints_loose {rank : Nat} {text : Text} {t : Tree} {symbols : List Symbol}
    (hrank : rank < leftHand) (hderives : Derives rank symbols t) (hbegins : Begins text)
    (hcuts : ∀ rest, Numeral.Ends rest → Cuts text symbols rest) :
    Prints rank text t symbols :=
  ⟨hderives, hbegins, hcuts, fun hle => absurd hle (Nat.not_le.mpr hrank)⟩

/-- An expression that may stand before anything that does not continue a name. -/
theorem prints_tight {rank : Nat} {text : Text} {t : Tree} {symbols : List Symbol}
    (hderives : Derives rank symbols t) (hbegins : Begins text)
    (hcuts : ∀ rest, Text.Stops Text.isIdentifierPart rest → Cuts text symbols rest) :
    Prints rank text t symbols :=
  ⟨hderives, hbegins, fun rest hrest => hcuts rest (stops_of_ends hrest), fun _ _ => hcuts⟩

theorem cuts_parenthesize {text : Text} {symbols : List Symbol}
    (h : ∀ rest, Numeral.Ends rest → Cuts text symbols rest) (rest : Text) :
    Cuts (Source.parenthesize text) (sign "(" :: symbols ++ [sign ")"]) rest := by
  have hopening : Cuts (Text.ofString "(") [sign "("] (text ++ Text.ofString ")" ++ rest) :=
    cuts_lone (by decide) (by decide) _
  have hclosing : Cuts (Text.ofString ")") [sign ")"] rest :=
    cuts_lone (by decide) (by decide) rest
  have hinner : Cuts text symbols (Text.ofString ")" ++ rest) :=
    h _ (ends_cons (by decide) (by decide) rest)
  exact hopening.append (hinner.append hclosing)

/-- The text of an expression at the place of an operand, in parentheses if it is not tight
enough. -/
theorem prints_textAt {t : Tree} (h : ∃ symbols, Prints t.level t.text t symbols) (least : Nat)
    (hleast : least ≤ primary) : ∃ symbols, Prints least (t.textAt least) t symbols := by
  obtain ⟨symbols, h⟩ := h
  rw [Tree.textAt]
  by_cases hlow : t.level < least
  · rw [if_pos hlow]
    have hgroup := Derives.group (h.derives.lower (Nat.zero_le _))
    exact ⟨_, prints_tight (hgroup.lower hleast) ⟨_, _, rfl, by decide⟩
      fun rest _ => cuts_parenthesize h.cuts rest⟩
  · rw [if_neg hlow]
    have hle : least ≤ t.level := Nat.not_lt.mp hlow
    exact ⟨symbols, h.derives.lower hle, h.begins, h.cuts,
      fun hleft => h.pointed (Nat.le_trans hleft hle)⟩

/-- The arguments of a call, with their symbols. -/
theorem exists_arguments {arguments : List Tree}
    (h : ∀ t ∈ arguments, ∃ symbols, Prints assignment (t.textAt Level.assignment) t symbols) :
    ∃ pairs : List (List Symbol × Tree), pairs.map (·.2) = arguments ∧
      ∀ a ∈ pairs, Prints assignment (a.2.textAt Level.assignment) a.2 a.1 := by
  induction arguments with
  | nil => exact ⟨[], rfl, by simp⟩
  | cons t rest ih =>
    obtain ⟨⟨symbols, hhere⟩, hrest⟩ := List.forall_mem_cons.mp h
    obtain ⟨pairs, rfl, hpairs⟩ := ih hrest
    exact ⟨(symbols, t) :: pairs, rfl, List.forall_mem_cons.mpr ⟨hhere, hpairs⟩⟩

theorem cuts_arguments {pairs : List (List Symbol × Tree)}
    (h : ∀ a ∈ pairs, Prints assignment (a.2.textAt Level.assignment) a.2 a.1) (rest : Text)
    (hrest : Numeral.Ends rest) :
    Cuts (Text.join ", " ((pairs.map (·.2)).map (Tree.textAt Level.assignment)))
      ([sign ","].intercalate (pairs.map (·.1))) rest := by
  induction pairs with
  | nil => exact cuts_nil rest
  | cons a pairs ih =>
    obtain ⟨hhere, hmore⟩ := List.forall_mem_cons.mp h
    cases pairs with
    | nil => simpa [Text.join, List.intercalate_singleton] using hhere.cuts rest hrest
    | cons b pairs =>
      have hothers := ih hmore
      have htext : Text.join ", " (((a :: b :: pairs).map (·.2)).map (Tree.textAt Level.assignment)) =
          a.2.textAt Level.assignment ++ Text.ofString ", " ++
            Text.join ", " (((b :: pairs).map (·.2)).map (Tree.textAt Level.assignment)) :=
        List.intercalate_cons_cons
      have hsymbols : [sign ","].intercalate ((a :: b :: pairs).map (·.1)) =
          a.1 ++ [sign ","] ++ [sign ","].intercalate ((b :: pairs).map (·.1)) :=
        List.intercalate_cons_cons
      rw [htext, hsymbols]
      refine Cuts.append (Cuts.append (hhere.cuts _ (ends_cons (by decide) (by decide) _)) ?_) hothers
      exact cuts_spaced (s := ",") (by decide) (by decide) _

/-- A sign with blanks around it. -/
theorem cuts_between {s : String} (hs : isPlainSign (Text.ofString s) = true)
    (hblank : Text.ascii ' ' ∉ continuations (Text.ofString s)) (rest : Text) :
    Cuts (Text.ofString " " ++ (Text.ofString s ++ Text.ofString " ")) [sign s] rest :=
  Cuts.append (cuts_blank _) (cuts_spaced hs hblank rest)

theorem starts_name {name : Text} (h : SExpression.isPlainName name = true) :
    name.Starts fun b => Text.isIdentifierStart b = true ∧ b ≠ Text.ascii '=' ∧
      b ≠ Text.ascii ' ' ∧ b ≠ Text.ascii '(' := by
  have hstarts : ∀ b, Text.isIdentifierStart b = true →
      b ≠ Text.ascii '=' ∧ b ≠ Text.ascii ' ' ∧ b ≠ Text.ascii '(' :=
    fun _ hb => ⟨SExpression.ne_of_class hb (by decide), SExpression.ne_of_class hb (by decide),
      SExpression.ne_of_class hb (by decide)⟩
  rw [SExpression.isPlainName, Bool.and_eq_true] at h
  cases name with
  | nil => simp at h
  | cons b more =>
    have hb : Text.isIdentifierStart b = true := by simpa using h.1
    exact ⟨b, more, rfl, hb, hstarts b hb⟩

/-- A unary operation starts with its operator. -/
theorem starts_unary {op : Text} (h : op ∈ unaryOperators) (text : Text) :
    (Source.unary op text).Starts fun b => b ≠ Text.ascii '=' ∧ b ≠ Text.ascii ' ' ∧
      b ≠ Text.ascii '(' := by
  have hall : ∀ op ∈ unaryOperators, op.head?.any (fun b => b != Text.ascii '=' &&
      (b != Text.ascii ' ' && b != Text.ascii '(')) = true := by decide
  have hop := hall op h
  cases op with
  | nil => simp at hop
  | cons b more => exact ⟨b, _, rfl, by simpa using hop⟩

section Shapes

variable {left right test consequent alternate callee object binding value : Tree}

theorem prints_number (code : Magnitude) :
    Prints primary (Tree.node (.numericLiteral (.finite false code)) []).text
      (.node (.numericLiteral (.finite false code)) []) [.number (.finite false code)] := by
  obtain ⟨b, more, htext, hb⟩ := numberText_front code
  have hequals : b ≠ Text.ascii '=' :=
    SExpression.ne_of_class (SExpression.startsNumber_iff.mpr hb) (by decide)
  exact ⟨.number _, ⟨b, more, htext, hequals⟩, fun rest hrest => cuts_number hrest,
    fun _ hkind => absurd rfl hkind⟩

theorem prints_unary {op : Text} (h : op ∈ unaryOperators) {operand : Tree} {symbols : List Symbol}
    (hoperand : Prints Level.unary (operand.textAt Level.unary) operand symbols) :
    Prints Level.unary (Source.unary op (operand.textAt Level.unary))
      (.node (.unaryExpression op) [operand]) (operator op :: symbols) :=
  prints_loose (show Level.unary < leftHand by decide) (.unary h hoperand.derives)
    ((starts_unary h _).mono fun _ hb => hb.1) fun rest hrest =>
      cuts_unary h hoperand.begins (hoperand.cuts rest hrest)

theorem prints_binary {op : Text} (h : isListed op = true) {before after : List Symbol}
    (hleft : Prints (Level.binary op) (left.textAt (Level.binary op)) left before)
    (hright : Prints (Level.binary op + 1) (right.textAt (Level.binary op + 1)) right after) :
    Prints (Level.binary op) (Source.binary op (left.textAt (Level.binary op))
        (right.textAt (Level.binary op + 1))) (.node (.binaryExpression op) [left, right])
      (before ++ operator op :: after) := by
  have hop := (listed_spec h).1
  obtain ⟨-, hranks, -⟩ := ladder_spec hop
  have hleftHand : leftHand = 14 := rfl
  have hloose : Nat.lt (Level.binary op) leftHand := by
    show @LT.lt Nat _ (Level.binary op) leftHand
    omega
  rw [Source.binary_eq]
  refine prints_loose hloose (.binary hop hleft.derives hright.derives) (hleft.begins.append _)
    fun rest hrest => ?_
  have hbehind : Cuts (Source.operatorText op ++ right.textAt (Level.binary op + 1))
      (operator op :: after) rest :=
    Cuts.append (cuts_operatorText h _) (hright.cuts rest hrest)
  refine Cuts.append (hleft.cuts _ ?_) hbehind
  rw [List.append_assoc]
  exact ends_operatorText op _

theorem prints_conditional {first second third : List Symbol}
    (htest : Prints disjunction (test.textAt Level.logicalOr) test first)
    (hconsequent : Prints Grammar.assignment (consequent.textAt Level.assignment) consequent second)
    (halternate : Prints Grammar.assignment (alternate.textAt Level.assignment) alternate third) :
    Prints conditional (test.textAt Level.logicalOr ++ Text.ofString " ? " ++
        consequent.textAt Level.assignment ++ Text.ofString " : " ++
        alternate.textAt Level.assignment)
      (.node .conditionalExpression [test, consequent, alternate])
      (first ++ sign "?" :: second ++ sign ":" :: third) := by
  refine prints_loose (by decide)
    (.conditional htest.derives hconsequent.derives halternate.derives) ?_ fun rest hrest => ?_
  · simp only [List.append_assoc]
    exact htest.begins.append _
  · have hquestion : ∀ rest, Cuts (Text.ofString " ? ") [sign "?"] rest :=
      cuts_between (s := "?") (by decide) (by decide)
    have hcolon : ∀ rest, Cuts (Text.ofString " : ") [sign ":"] rest :=
      cuts_between (s := ":") (by decide) (by decide)
    have hends : ∀ rest, Numeral.Ends (Text.ascii ' ' :: rest) :=
      ends_cons (by decide) (by decide)
    have hall := Cuts.append (Cuts.append (Cuts.append (Cuts.append
      (htest.cuts _ (hends _)) (hquestion _)) (hconsequent.cuts _ (hends _))) (hcolon _))
      (halternate.cuts rest hrest)
    simpa using hall

theorem prints_assignment {before after : List Symbol}
    (hbinding : Prints leftHand (binding.textAt Level.call) binding before)
    (hvalue : Prints Grammar.assignment (value.textAt Level.assignment) value after) :
    Prints Grammar.assignment (binding.textAt Level.call ++ Text.ofString " = " ++
        value.textAt Level.assignment)
      (.node .assignmentExpression [binding, value]) (before ++ sign "=" :: after) := by
  refine prints_loose (by decide) (.assignment hbinding.derives hvalue.derives) ?_
    fun rest hrest => ?_
  · rw [List.append_assoc]
    exact hbinding.begins.append _
  · have hequals : ∀ rest, Cuts (Text.ofString " = ") [sign "="] rest :=
      cuts_between (s := "=") (by decide) (by decide)
    have hall := Cuts.append (Cuts.append
      (hbinding.cuts _ (ends_cons (by decide) (by decide) _)) (hequals _))
      (hvalue.cuts rest hrest)
    simpa using hall

theorem prints_call {symbols : List Symbol} {pairs : List (List Symbol × Tree)}
    (hcallee : Prints leftHand (callee.textAt Level.call) callee symbols)
    (hpairs : ∀ a ∈ pairs, Prints Grammar.assignment (a.2.textAt Level.assignment) a.2 a.1) :
    Prints leftHand (callee.textAt Level.call ++ Source.parenthesize
        (Text.join ", " ((pairs.map (·.2)).map (Tree.textAt Level.assignment))))
      (.node .callExpression [callee, .list (pairs.map (·.2))])
      (symbols ++ sign "(" :: [sign ","].intercalate (pairs.map (·.1)) ++ [sign ")"]) := by
  refine prints_tight (.call hcallee.derives fun a ha => (hpairs a ha).derives)
    (hcallee.begins.append _) fun rest _ => ?_
  have hall := Cuts.append (hcallee.cuts _ (ends_cons (by decide) (by decide) _))
    (cuts_parenthesize (cuts_arguments hpairs) rest)
  simpa using hall

theorem prints_member {symbols : List Symbol} {property : Text}
    (hproperty : SExpression.isPlainName property = true)
    (hnumber : object.kind? ≠ some .numericLiteral)
    (h : Prints leftHand (object.textAt Level.call) object symbols) :
    Prints leftHand (object.textAt Level.call ++ Text.ascii '.' :: property)
      (.node (.staticMemberExpression property) [object])
      (symbols ++ [sign ".", .word property]) := by
  refine prints_tight (.member h.derives) (h.begins.append _) fun rest hrest => ?_
  have hstart : (property ++ rest).head?.any Text.isIdentifierStart = true := by
    obtain ⟨b, more, rfl, hb, -⟩ := starts_name hproperty
    exact hb
  have hpoint : Cuts (Text.ascii '.' :: property) [sign ".", .word property] rest :=
    Cuts.append (cuts_point hstart) (cuts_word hproperty hrest)
  exact Cuts.append (h.pointed (Nat.le_refl _) hnumber _ (Text.stops_cons (by decide) _)) hpoint

end Shapes

/-- The text of every readable expression prints it. -/
theorem prints_text {e : Tree} (h : Expression isReadable e) :
    ∃ symbols, Prints e.level e.text e symbols := by
  induction h with
  | identifier h =>
    simp only [isReadable, Bool.and_eq_true, Bool.not_eq_true', ← Bool.not_eq_true,
      List.contains_iff_mem] at h
    exact ⟨_, prints_tight (.identifier h.2) ((starts_name h.1).mono fun _ hb => hb.2.1)
      fun rest hrest => cuts_word h.1 hrest⟩
  | @number x h =>
    -- a number with a sign is not readable
    obtain ⟨code, rfl⟩ : ∃ code, x = .finite false code := by
      cases x with
      | finite negative code => exact ⟨code, by simpa [isReadable] using h⟩
      | _ => simp [isReadable] at h
    exact ⟨_, prints_number code⟩
  | @string t h =>
    exact ⟨_, prints_tight (.string t) ⟨_, _, rfl, by decide⟩ fun rest _ => cuts_quote t rest⟩
  | @boolean b h =>
    refine ⟨_, prints_tight (.boolean b) ?_ fun rest hrest => ?_⟩
    · cases b <;> exact ⟨_, _, rfl, by decide⟩
    · cases b <;> exact cuts_word (by decide) hrest
  | null h =>
    exact ⟨_, prints_tight .null ⟨_, _, rfl, by decide⟩ fun rest hrest =>
      cuts_word (by decide) hrest⟩
  | @binary op left right h hleft hright ihleft ihright =>
    have hlisted : isListed op = true := h
    obtain ⟨-, hranks, -⟩ := ladder_spec (listed_spec hlisted).1
    have hprimary : primary = 15 := rfl
    obtain ⟨_, hbefore⟩ := prints_textAt ihleft (Level.binary op) (by omega)
    obtain ⟨_, hafter⟩ := prints_textAt ihright (Level.binary op + 1) (by omega)
    rw [text_binary hleft hright]
    exact ⟨_, prints_binary hlisted hbefore hafter⟩
  | @unary op operand hne h hoperand ih =>
    obtain ⟨_, hprints⟩ := prints_textAt ih Level.unary (by decide)
    rw [text_unary hne hoperand]
    exact ⟨_, prints_unary (List.contains_iff_mem.mp h) hprints⟩
  | conditional h htest hconsequent halternate ihtest ihconsequent ihalternate =>
    obtain ⟨_, hfirst⟩ := prints_textAt ihtest Level.logicalOr (by decide)
    obtain ⟨_, hsecond⟩ := prints_textAt ihconsequent Level.assignment (by decide)
    obtain ⟨_, hthird⟩ := prints_textAt ihalternate Level.assignment (by decide)
    rw [text_conditional htest hconsequent halternate]
    exact ⟨_, prints_conditional hfirst hsecond hthird⟩
  | @call callee arguments h hcallee harguments ihcallee iharguments =>
    obtain ⟨_, hprints⟩ := prints_textAt ihcallee Level.call (by decide)
    obtain ⟨pairs, rfl, hpairs⟩ := exists_arguments fun t ht =>
      prints_textAt (iharguments t ht) Level.assignment (by decide)
    rw [text_call hcallee harguments]
    exact ⟨_, prints_call hprints hpairs⟩
  | @member property object h hobject ih =>
    obtain ⟨_, hprints⟩ := prints_textAt ih Level.call (by decide)
    simp only [isReadable, Bool.and_eq_true, bne_iff_ne, ne_eq] at h
    rw [text_member hobject]
    exact ⟨_, prints_member h.1 h.2 hprints⟩
  | assignment h hbinding hvalue ihbinding ihvalue =>
    obtain ⟨_, hbefore⟩ := prints_textAt ihbinding Level.call (by decide)
    obtain ⟨_, hafter⟩ := prints_textAt ihvalue Level.assignment (by decide)
    rw [text_assignment hbinding hvalue]
    exact ⟨_, prints_assignment hbefore hafter⟩

/-- The text of a readable expression stands for it, and for nothing else. -/
theorem reads_text_iff {e : Tree} (h : Expression isReadable e) (t : Tree) :
    Reads e.text t ↔ t = e := by
  obtain ⟨symbols, hprints⟩ := prints_text h
  have hsymbols : symbols? e.text = some symbols := by
    have hcuts := hprints.cuts [] (by simp [Numeral.Ends])
    rw [Cuts, List.append_nil, symbolsFrom] at hcuts
    simpa [symbols?] using hcuts
  have hderives : Derives sequence symbols e := hprints.derives.lower (Nat.zero_le _)
  constructor
  · rintro ⟨others, hothers, ht⟩
    obtain rfl : others = symbols := Option.some.inj (hothers.symm.trans hsymbols)
    exact ht.unique hderives
  · rintro rfl
    exact ⟨symbols, hsymbols, hderives⟩

end Grammar

/-- The source of a complete expression, with operators of the grammar, numbers without sign, plain
names that are not reserved and no property of a number, is an expression that stands for this tree
and no other.  In particular no two such expressions have the same source. -/
theorem source_reads_back {e : Tree} (hformed : e.isWellFormed .full = true)
    (hin : e.isIn .expression = true) (hreadable : e.allNodes Grammar.isReadable = true) :
    (∃ text, e.source? = some text ∧ ∀ t, Grammar.Reads text t ↔ t = e) ∧
    ∀ e' : Tree, e'.isWellFormed .full = true → e'.isIn .expression = true →
      e'.allNodes Grammar.isReadable = true → e'.source? = e.source? → e' = e := by
  have hexpression : ∀ e : Tree, e.isWellFormed .full = true → e.isIn .expression = true →
      e.allNodes Grammar.isReadable = true → Expression Grammar.isReadable e := by
    intro e hformed hin hreadable
    rw [Tree.isWellFormed, Bool.and_eq_true] at hformed
    exact expression_of_good e ⟨hformed.2, hreadable⟩ hin
  have he := hexpression e hformed hin hreadable
  refine ⟨⟨e.text, he.source?_eq, Grammar.reads_text_iff he⟩, ?_⟩
  intro e' hformed' hin' hreadable' hsource
  have he' := hexpression e' hformed' hin' hreadable'
  rw [he'.source?_eq, he.source?_eq] at hsource
  have htext : e'.text = e.text := Option.some.inj hsource
  have hread := (Grammar.reads_text_iff he' e').mpr rfl
  rw [htext] at hread
  exact (Grammar.reads_text_iff he e').mp hread

/-- Signs that would run together, operands on either side of a subtraction and a conditional as a
test. -/
theorem source_reads_back_nested :
    let a : Tree := .node (.identifierExpression "a") []
    let b : Tree := .node (.identifierExpression "b") []
    let negated : Tree := .node (.unaryExpression "-") [.node (.unaryExpression "-") [a]]
    let difference : Tree := .node (.binaryExpression "-")
      [negated, .node (.binaryExpression "-") [a, .node (.numericLiteral (.zero false)) []]]
    let e : Tree := .node .conditionalExpression
      [.node .conditionalExpression [difference, a, b],
       .node .callExpression [.node (.staticMemberExpression "in") [difference], .list [a, b]],
       .node .assignmentExpression [a, b]]
    e.source? = some (Text.ofString
      "(- -a - (a - 0) ? a : b) ? (- -a - (a - 0)).in(a, b) : a = b") ∧
    Grammar.Reads (Text.ofString
      "(- -a - (a - 0) ? a : b) ? (- -a - (a - 0)).in(a, b) : a = b") e := by
  intro a b negated difference e
  have hsource : e.source? = some (Text.ofString
      "(- -a - (a - 0) ? a : b) ? (- -a - (a - 0)).in(a, b) : a = b") := by
    decide +kernel
  obtain ⟨text, htext, hreads⟩ :=
    (source_reads_back (e := e) (by decide +kernel) (by decide) (by decide +kernel)).1
  obtain rfl := Option.some.inj (hsource.symm.trans htext)
  exact ⟨hsource, (hreads e).mpr rfl⟩

end ScriptSimplifier
