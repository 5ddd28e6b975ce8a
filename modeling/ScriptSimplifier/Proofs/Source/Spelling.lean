import ScriptSimplifier.Proofs.Source.Parentheses
import ScriptSimplifier.Proofs.Text.Codes

/-!
# How attributes are spelled in source text

The names, literals and operators of a tree can be read off the front of a source text, given what
the printer lets follow them (`Source.Follows`): names end where no byte continues them, a number
may stand before the point of a property because a point in a number is always before a digit
(`numberFront_numberText`), and no operator with its blanks is the start of another one.
-/

namespace ScriptSimplifier

open Text (Tells Stops)

/-- Names are plain, a jump may go without target, and operators are those of the grammar. -/
def isSpelled : Label → List Tree → Bool
  | .binaryExpression op, _ => Grammar.isListed op
  | .unaryExpression op, _ => Grammar.unaryOperators.contains op
  | .identifierExpression name, _ | .bindingIdentifier name, _ | .functionDeclaration name, _
  | .staticMemberExpression name, _ => SExpression.isPlainName name
  | .breakStatement target, _ | .continueStatement target, _ =>
    target.isEmpty || SExpression.isPlainName target
  | _, _ => true

/-! ## What may follow -/

namespace Source

/-- A blank, or a sign of the statement or of the expression around an expression. -/
def isEnd (b : UInt8) : Bool :=
  b == Text.ascii ' ' || b == Text.ascii ',' || b == Text.ascii ';' || b == Text.ascii '(' ||
    b == Text.ascii ')'

/-- What may follow an expression: nothing, such a byte, or the point of a property. -/
def Follows : Text → Prop
  | [] => True
  | b :: rest =>
    isEnd b = true ∨ b = Text.ascii '.' ∧ rest.head?.any Text.isIdentifierStart = true

theorem follows_append {t : Text} (h : t.head?.any isEnd = true) (rest : Text) :
    Follows (t ++ rest) := by
  cases t with
  | nil => simp at h
  | cons b t => exact .inl h

theorem follows_cons {b : UInt8} (h : isEnd b = true) (rest : Text) : Follows (b :: rest) := .inl h

theorem isEnd_spec {b : UInt8} (h : isEnd b = true) : Text.isIdentifierPart b = false ∧
    b ≠ Text.ascii '+' ∧ b ≠ Text.ascii '-' ∧ b ≠ Text.ascii '.' := by
  simp only [isEnd, Bool.or_eq_true, beq_iff_eq, or_assoc] at h
  rcases h with rfl | rfl | rfl | rfl | rfl <;> decide

theorem Follows.stops {u : Text} (h : Follows u) : Stops Text.isIdentifierPart u := by
  intro b hb
  cases u with
  | nil => simp at hb
  | cons c rest =>
    obtain rfl : c = b := by simpa using hb
    rcases h with hend | ⟨rfl, -⟩
    · exact (isEnd_spec hend).1
    · decide

end Source

open Source (Follows isEnd isEnd_spec)

/-- Plain names before something that does not continue them. -/
theorem name_tells {name name' : Text} (h : SExpression.isPlainName name = true)
    (h' : SExpression.isPlainName name' = true) :
    Tells (Stops Text.isIdentifierPart) id name name' := by
  rw [SExpression.isPlainName, Bool.and_eq_true, List.all_eq_true] at h h'
  exact Text.tells_class h.2 h'.2

/-! ## Numbers -/

/-- The bytes at the front of a text that a number may consist of: a point belongs to it only before
a digit. -/
def numberFront : Text → Text
  | [] => []
  | b :: rest =>
    if Text.isIdentifierPart b || b == Text.ascii '+' || b == Text.ascii '-' ||
        (b == Text.ascii '.' && rest.head?.any Text.isDigit) then
      b :: numberFront rest
    else []

theorem numberFront_follows {u : Text} (hu : Follows u) : numberFront u = [] := by
  cases u with
  | nil => rfl
  | cons b rest =>
    rw [numberFront, if_neg]
    rcases hu with hend | ⟨rfl, hname⟩
    · simp [isEnd_spec hend]
    · have hdigit : rest.head?.any Text.isDigit = false := by
        cases rest with
        | nil => rfl
        | cons c rest => exact SExpression.isDigit_of_isIdentifierStart hname
      simp [hdigit]
      decide

/-- What follows an expression does not belong to a number. -/
theorem numberFront_append {t u : Text} (ht : numberFront t = t) (hu : Follows u) :
    numberFront (t ++ u) = t := by
  induction t with
  | nil => exact numberFront_follows hu
  | cons b t ih =>
    rw [numberFront] at ht
    split at ht
    · rename_i hb
      rw [List.cons_append, numberFront, if_pos, ih (List.cons.inj ht).2]
      cases t with
      | nil => simpa using Or.inl (by simpa using hb)
      | cons c t => exact hb
    · simp at ht

/-- Digits, letters and signs in front of a number. -/
theorem numberFront_parts {t u : Text} (ht : ∀ b ∈ t, (Text.isIdentifierPart b ||
    b == Text.ascii '+' || b == Text.ascii '-') = true) (hu : numberFront u = u) :
    numberFront (t ++ u) = t ++ u := by
  induction t with
  | nil => exact hu
  | cons b t ih =>
    obtain ⟨hb, ht⟩ := List.forall_mem_cons.mp ht
    rw [List.cons_append, numberFront, if_pos (by rw [hb, Bool.true_or]), ih ht]

theorem part_of_digit {b : UInt8} (h : Text.isDigit b = true) :
    (Text.isIdentifierPart b || b == Text.ascii '+' || b == Text.ascii '-') = true := by
  simp [Text.isIdentifierPart, h]

/-- A point with digits behind it. -/
theorem numberFront_point {digits u : Text} (h : ∀ b ∈ digits, Text.isDigit b = true)
    (hne : digits ≠ []) (hu : numberFront u = u) :
    numberFront (Text.ascii '.' :: (digits ++ u)) = Text.ascii '.' :: (digits ++ u) := by
  have hdigits : numberFront (digits ++ u) = digits ++ u :=
    numberFront_parts (fun b hb => part_of_digit (h b hb)) hu
  obtain ⟨b, digits, rfl⟩ := List.exists_cons_of_ne_nil hne
  have hb := h b (by simp)
  rw [numberFront, if_pos (by simp [hb]), hdigits]

set_option maxRecDepth 2000 in
/-- In every layout of a decimal the point is before a digit. -/
theorem numberFront_write (d : Decimal) :
    numberFront (scriptLayout.write d) = scriptLayout.write d := by
  have hdigits : ∀ b ∈ Text.ofNat d.digits, Text.isDigit b = true := fun _ => isDigit_ofNat
  have hne := ofNat_ne_nil d.digits
  have hempty : numberFront [] = [] := rfl
  have hword : ∀ {t : Text}, (∀ b ∈ t, Text.isDigit b = true) → numberFront t = t := by
    intro t ht
    simpa using numberFront_parts (fun b hb => part_of_digit (ht b hb)) hempty
  rw [DecimalLayout.write]
  generalize Text.ofNat d.digits = digits at *
  dsimp only
  split
  · -- digits and zeros
    exact hword (List.forall_mem_append.mpr ⟨hdigits, fun _ => isDigit_zeros⟩)
  · split
    · -- a point among the digits
      have hbehind : digits.drop (d.exponent + digits.length).toNat ≠ [] := by
        rw [Ne, List.drop_eq_nil_iff]
        omega
      have hpoint := numberFront_point (Numeral.drop_digits hdigits _) hbehind hempty
      rw [List.append_nil] at hpoint
      exact numberFront_parts
        (fun b hb => part_of_digit (hdigits b (List.mem_of_mem_take hb))) hpoint
    · split
      · -- zeros between the point and the digits
        have hzero : Text.ofString "0." = [Text.ascii '0', Text.ascii '.'] := by decide
        have hzeros : ∀ b ∈ List.replicate (-(d.exponent + digits.length)).toNat (Text.ascii '0') ++
            digits, Text.isDigit b = true :=
          List.forall_mem_append.mpr ⟨fun _ => isDigit_zeros, hdigits⟩
        have hpoint := numberFront_point hzeros (by simp [hne]) hempty
        rw [List.append_nil] at hpoint
        rw [hzero, List.append_assoc]
        exact numberFront_parts (t := [Text.ascii '0']) (by decide) hpoint
      · -- an exponent behind one digit, or behind a point and the other digits
        have hexponent : ∀ {mark : Text}, (∀ b ∈ mark, (Text.isIdentifierPart b ||
            b == Text.ascii '+' || b == Text.ascii '-') = true) → ∀ n : Nat,
            numberFront (mark ++ Text.ofNat n) = mark ++ Text.ofNat n :=
          fun hmark n => numberFront_parts hmark (hword fun _ => isDigit_ofNat)
        have htail : numberFront ((if d.exponent + digits.length - 1 < 0 then Text.ofString "e-"
            else Text.ofString "e+") ++ Text.ofNat (d.exponent + digits.length - 1).natAbs) =
            (if d.exponent + digits.length - 1 < 0 then Text.ofString "e-"
              else Text.ofString "e+") ++ Text.ofNat (d.exponent + digits.length - 1).natAbs := by
          split
          · exact hexponent (by decide) _
          · exact hexponent (by decide) _
        split
        · rw [List.append_assoc]
          exact numberFront_parts (fun b hb => part_of_digit (hdigits b hb)) htail
        · rename_i hlength
          have hbehind : digits.drop 1 ≠ [] := by
            rw [Ne, List.drop_eq_nil_iff]
            have := List.length_pos_iff.mpr hne
            omega
          rw [List.append_assoc, List.append_assoc, List.cons_append]
          exact numberFront_parts
            (fun b hb => part_of_digit (hdigits b (List.mem_of_mem_take hb)))
            (numberFront_point (Numeral.drop_digits hdigits 1) hbehind htail)

set_option maxRecDepth 2000 in
theorem numberFront_numberText (x : Double) :
    numberFront (Label.numberText x) = Label.numberText x := by
  cases x with
  | nan => decide
  | inf negative => cases negative <;> decide
  | finite negative code =>
    rw [Label.numberText]
    split
    · decide
    · rw [Double.toText]
      split
      · decide
      · have hwrite := numberFront_write (Decimal.shortest code)
        split
        · exact numberFront_parts (t := [Text.ascii '-']) (by decide) hwrite
        · exact hwrite

/-- Numbers with the same text are the same. -/
theorem numberText_inj {x y : Double} (h : Label.numberText x = Label.numberText y) : x = y := by
  have hnan : SExpression.numberValue (Label.numberText .nan) = .nan := by decide
  have hinf : ∀ negative, SExpression.numberValue (Label.numberText (.inf negative)) = .nan := by
    decide
  have hfinite : ∀ negative code, SExpression.numberValue
      (Label.numberText (.finite negative code)) = .finite negative code :=
    fun negative code => (SExpression.lexes_number negative code).2
  have hvalue := congrArg SExpression.numberValue h
  cases x with
  | nan =>
    cases y with
    | nan => rfl
    | inf negative => cases negative <;> exact absurd h (by decide)
    | finite negative code => simp [hnan, hfinite] at hvalue
  | inf negative =>
    cases y with
    | nan => cases negative <;> exact absurd h (by decide)
    | inf negative' =>
      have hsigns : ∀ a b, Label.numberText (.inf a) = Label.numberText (.inf b) → a = b := by
        decide
      rw [hsigns _ _ h]
    | finite negative' code => simp [hinf, hfinite] at hvalue
  | finite negative code =>
    cases y with
    | nan => simp [hnan, hfinite] at hvalue
    | inf negative' => simp [hinf, hfinite] at hvalue
    | finite negative' code' => rwa [hfinite, hfinite] at hvalue

theorem number_tells (x y : Double) : Tells Follows Label.numberText x y := by
  intro u v hu hv heq
  have hfront := congrArg numberFront heq
  rw [numberFront_append (numberFront_numberText x) hu,
    numberFront_append (numberFront_numberText y) hv] at hfront
  obtain rfl := numberText_inj hfront
  exact ⟨rfl, List.append_cancel_left heq⟩

/-! ## Quoted texts -/

theorem quote_tells (t t' : Text) : Tells (fun _ => True) Text.quote t t' := by
  intro u v _ _ heq
  simp only [Text.quote, List.cons_append, List.append_assoc, List.nil_append] at heq
  have hbody := (List.cons.inj heq).2
  have hlength := congrArg SExpression.stringLength? hbody
  rw [SExpression.stringLength?_writeGlyphs, SExpression.stringLength?_writeGlyphs] at hlength
  obtain ⟨hglyphs, hrest⟩ := List.append_inj hbody (by simpa using hlength)
  have hquote : t.quote = t'.quote := by rw [Text.quote, Text.quote, hglyphs]
  have ht := unquote?_quote t
  rw [hquote, unquote?_quote] at ht
  exact ⟨(Option.some.inj ht).symm, (List.cons.inj hrest).2⟩

/-! ## Operators -/

namespace Source

theorem operator_tells {op op' : Text} (h : Grammar.isListed op = true)
    (h' : Grammar.isListed op' = true) : Tells (fun _ => True) operatorText op op' := by
  have hfree : ∀ op ∈ Level.ofOperator.map (Text.ofString ·.1),
      ∀ op' ∈ Level.ofOperator.map (Text.ofString ·.1),
        (operatorText op).isPrefixOf (operatorText op') = true → op = op' := by
    decide
  have hmem : ∀ {op}, Grammar.isListed op = true → op ∈ Level.ofOperator.map (Text.ofString ·.1) := by
    intro op h
    obtain ⟨entry, hentry, heq⟩ := List.any_eq_true.mp h
    exact List.mem_map.mpr ⟨entry, hentry, by simpa using heq⟩
  exact Text.tells_prefixFree hfree (hmem h) (hmem h')

/-- A text that does not start with a blank. -/
abbrev Solid (t : Text) : Prop := t.Starts (· ≠ Text.ascii ' ')

/-- A unary operator and its operand, which a blank may separate. -/
theorem unary_tells {op op' t t' u v : Text} (h : op ∈ Grammar.unaryOperators)
    (h' : op' ∈ Grammar.unaryOperators) (ht : Solid t) (ht' : Solid t')
    (heq : unary op t ++ u = unary op' t' ++ v) : op = op' ∧ t ++ u = t' ++ v := by
  have hfree : ∀ op ∈ Grammar.unaryOperators, ∀ op' ∈ Grammar.unaryOperators,
      op.isPrefixOf op' = true → op = op' := by decide
  rw [unary, unary, List.append_assoc, List.append_assoc] at heq
  obtain ⟨rfl, heq⟩ := Text.tells_prefixFree (f := id) hfree h h' trivial trivial heq
  refine ⟨rfl, ?_⟩
  obtain ⟨b, more, rfl, hb⟩ := ht
  obtain ⟨c, more', rfl, hc⟩ := ht'
  -- both operands are set apart, or neither
  split at heq <;> split at heq
  · exact (List.cons.inj heq).2
  · exact absurd (List.cons.inj heq).1.symm hc
  · exact absurd (List.cons.inj heq).1 hb
  · exact heq

end Source

end ScriptSimplifier
