import ScriptSimplifier.Proofs.SExpression.Reading
import ScriptSimplifier.Proofs.SExpression.Scanning

/-!
# Reading what was written

Reading a writable tree from either of its s-expressions gives the tree back.  The statement that
carries the proof is `Carries`: a piece of text takes the reader from one state to another, wherever
it stands before a delimiter.  The text of a child takes every frame that waits for it to the frame
with the child added (`write_carries`), by induction on the tree along the functions that write it.
-/

namespace ScriptSimplifier

namespace SExpression

/-! ## Pieces of text -/

/-- A text takes the reader from a state to another: the tokens of the text are read first,
whatever follows it behind a delimiter. -/
def Carries (text : Text) (state target : State) : Prop :=
  ∀ rest column, Delimited rest → ∃ column', ∀ tokens, scanFrom column' 0 rest = .ok tokens →
    ∃ tokens', scanFrom column 0 (text ++ rest) = .ok tokens' ∧
      readTokens state tokens' = readTokens target tokens

theorem readTokens_cons {t : Token} {tokens : List Token} {state next : State}
    (h : step t state = .ok next) : readTokens state (t :: tokens) = readTokens next tokens := by
  rw [readTokens, h]

variable {text more : Text} {state middle target : State}

theorem Carries.refl : Carries [] state state :=
  fun _ column _ => ⟨column, fun tokens htokens => ⟨tokens, htokens, rfl⟩⟩

theorem Carries.append (hmore : Delimited more) (h : Carries text state middle)
    (h' : Carries more middle target) : Carries (text ++ more) state target := by
  intro rest column hrest
  obtain ⟨column', hfirst⟩ := h (more ++ rest) column (hmore.append hrest)
  obtain ⟨column'', hsecond⟩ := h' rest column' hrest
  refine ⟨column'', fun tokens htokens => ?_⟩
  obtain ⟨between, hbetween, heq'⟩ := hsecond tokens htokens
  obtain ⟨tokens', htokens', heq⟩ := hfirst between hbetween
  exact ⟨tokens', by rw [List.append_assoc, htokens'], heq.trans heq'⟩

theorem Carries.separator {b : UInt8} (hb : isSeparator b = true) (h : Carries text state target) :
    Carries (b :: text) state target := by
  intro rest column hrest
  obtain ⟨column', hread⟩ := h rest (nextColumn column b) hrest
  refine ⟨column', fun tokens htokens => ?_⟩
  rw [List.cons_append, scanFrom_separator hb]
  exact hread tokens htokens

theorem Carries.bracket {b : UInt8} {cls : TokenClass} (hb : bracketClass? b = some cls)
    (h : ∀ column, ∃ next, step ⟨cls, [b], column⟩ state = .ok next ∧ Carries text next target) :
    Carries (b :: text) state target := by
  intro rest column hrest
  obtain ⟨next, hstep, hcarries⟩ := h (nextColumn column b)
  obtain ⟨column', hread⟩ := hcarries rest (nextColumn column b) hrest
  refine ⟨column', fun tokens htokens => ?_⟩
  obtain ⟨tokens', htokens', heq⟩ := hread tokens htokens
  refine ⟨_, ?_, (readTokens_cons hstep).trans heq⟩
  rw [List.cons_append, scanFrom_bracket hb, htokens']
  rfl

/-- States that take a bracket alike take what starts with it alike. -/
theorem Carries.of_bracket {b : UInt8} {cls : TokenClass} (hb : bracketClass? b = some cls)
    (hstep : ∀ column, step ⟨cls, [b], column⟩ state = step ⟨cls, [b], column⟩ middle)
    (h : Carries (b :: text) middle target) : Carries (b :: text) state target := by
  intro rest column hrest
  obtain ⟨column', hread⟩ := h rest column hrest
  refine ⟨column', fun tokens htokens => ?_⟩
  obtain ⟨tokens', htokens', heq⟩ := hread tokens htokens
  refine ⟨tokens', htokens', ?_⟩
  rw [List.cons_append, scanFrom_bracket hb] at htokens'
  cases hscan : scanFrom (nextColumn column b) 0 (text ++ rest) with
  | error column => simp [hscan, Except.map] at htokens'
  | ok tokens'' =>
    rw [hscan] at htokens'
    obtain rfl := Except.ok.inj htokens'
    rw [← heq, readTokens, readTokens, hstep]

theorem Carries.word {word : Text} {cls : TokenClass} (hword : Lexes word cls)
    (hmore : Delimited more)
    (h : ∀ column, ∃ next, step ⟨cls, word, column⟩ state = .ok next ∧ Carries more next target) :
    Carries (word ++ more) state target := by
  intro rest column hrest
  obtain ⟨at', column', hscan⟩ := scanFrom_lexes hword (hmore.append hrest) column
  obtain ⟨next, hstep, hcarries⟩ := h at'
  obtain ⟨column'', hread⟩ := hcarries rest column' hrest
  refine ⟨column'', fun tokens htokens => ?_⟩
  obtain ⟨tokens', htokens', heq⟩ := hread tokens htokens
  refine ⟨_, ?_, (readTokens_cons hstep).trans heq⟩
  rw [List.append_assoc]
  exact hscan tokens' htokens'

/-- A word at the end of a piece. -/
theorem Carries.last {word : Text} {cls : TokenClass} (hword : Lexes word cls)
    (h : ∀ column, step ⟨cls, word, column⟩ state = .ok target) : Carries word state target := by
  have hcarries : Carries (word ++ []) state target :=
    .word hword delimited_nil fun column => ⟨target, h column, .refl⟩
  rwa [List.append_nil] at hcarries

theorem readTokens_nil (h : ∀ t, state ≠ .finished t) :
    readTokens state [] =
      match step .atEnd state with
      | .ok _ => fail [] (.unexpected .atEnd)
      | .error e => .error e := by
  cases state with
  | finished t => exact absurd rfl (h t)
  | _ => rfl

/-- States that take all tokens alike. -/
theorem Carries.congr (hstate : ∀ t, state ≠ .finished t) (hmiddle : ∀ t, middle ≠ .finished t)
    (hstep : ∀ t, step t state = step t middle) (h : Carries text middle target) :
    Carries text state target := by
  have hread : ∀ tokens, readTokens state tokens = readTokens middle tokens := by
    intro tokens
    cases tokens with
    | nil => rw [readTokens_nil hstate, readTokens_nil hmiddle, hstep]
    | cons t tokens => rw [readTokens, readTokens, hstep]
  intro rest column hrest
  obtain ⟨column', hcarries⟩ := h rest column hrest
  refine ⟨column', fun tokens htokens => ?_⟩
  obtain ⟨tokens', htokens', heq⟩ := hcarries tokens htokens
  exact ⟨tokens', htokens', (hread tokens').trans heq⟩

/-! ## Attributes -/

section Attributes

variable {column : Nat} {frames : List Frame} {make : Text → Label}

/-- A name, plain or quoted. -/
theorem name_carries (name : Text)
    (hstep : ∀ t, step t state = openWith column frames ((nameOf t).map make))
    (hmore : Delimited more) (h : Carries more (openNode column (make name) frames) target) :
    Carries (Text.ascii ' ' :: writeName name ++ more) state target := by
  refine .separator rfl ?_
  rw [writeName]
  split
  · rename_i hplain
    rw [Bool.and_eq_true] at hplain
    exact .word (lexes_name hplain.1) hmore fun _ => ⟨_, hstep _, h⟩
  · refine .word (lexes_quote name) hmore fun _ => ⟨openNode column (make name) frames, ?_, h⟩
    rw [hstep, nameOf, stringOf, unquote?_quote]
    rfl

/-- An operator, a sign or a word. -/
theorem operator_carries {operator : Text}
    (hoperator : (operators.contains operator || isPlainName operator) = true)
    (hstep : ∀ t, step t state = openWith column frames ((operatorOf t).map make))
    (hmore : Delimited more) (h : Carries more (openNode column (make operator) frames) target) :
    Carries (Text.ascii ' ' :: operator ++ more) state target := by
  refine .separator rfl ?_
  rw [Bool.or_eq_true, List.contains_iff_mem] at hoperator
  rcases hoperator with hsign | hword
  · exact .word (lexes_operator hsign) hmore fun _ => ⟨_, hstep _, h⟩
  · exact .word (lexes_name hword) hmore fun _ => ⟨_, hstep _, h⟩

/-- The target of a jump, if it has one; a jump is closed behind it. -/
theorem jump_carries {goal : Text} (hgoal : (goal.isEmpty || isPlainName goal) = true)
    (hstep : ∀ t, step t state = openJump column make t frames)
    (h : Carries [Text.ascii ')'] (openNode column (make goal) frames) target) :
    Carries ((if goal.isEmpty then [] else Text.ascii ' ' :: goal) ++ [Text.ascii ')'])
      state target := by
  have hdelimited : Delimited [Text.ascii ')'] := delimited_cons (by decide) []
  split
  · rename_i hempty
    obtain rfl : goal = [] := by simpa using hempty
    refine .of_bracket rfl (fun at' => ?_) h
    rw [hstep]
    rfl
  · rename_i hnonempty
    rw [Bool.not_eq_true] at hnonempty
    rw [hnonempty, Bool.false_or] at hgoal
    refine .separator rfl (.word (lexes_name hgoal) hdelimited fun _ => ⟨_, ?_, h⟩)
    rw [hstep]
    rfl

/-- A number, not-a-number and the infinities as words. -/
theorem number_carries (x : Double) (hmore : Delimited more)
    (h : Carries more (openNode column (.numericLiteral x) frames) target) :
    Carries (Text.ascii ' ' :: writeNumber x ++ more) (.attribute column .numericLiteral frames)
      target := by
  rw [List.cons_append]
  refine .separator rfl ?_
  cases x with
  | nan => exact .word (lexes_name (by decide)) hmore fun _ => ⟨_, rfl, h⟩
  | inf negative =>
    cases negative with
    | false => exact .word (lexes_name (by decide)) hmore fun _ => ⟨_, rfl, h⟩
    | true =>
      have htext : writeNumber (.inf true) ++ more =
          Text.ofString "-" ++ (Text.ascii ' ' :: Text.ofString "Infinity" ++ more) := by
        rw [show writeNumber (.inf true) = Text.ofString "-" ++ Text.ascii ' ' ::
          Text.ofString "Infinity" by decide, List.append_assoc]
      rw [htext]
      refine .word (lexes_operator (by decide)) (delimited_cons (by decide) _) fun _ =>
        ⟨.magnitude column frames, rfl, ?_⟩
      exact .separator rfl (.word (lexes_name (by decide)) hmore fun _ => ⟨_, rfl, h⟩)
  | finite negative code =>
    obtain ⟨hlexes, hvalue⟩ := lexes_number negative code
    rw [show writeNumber (.finite negative code) = Label.numberText (.finite negative code)
      from rfl]
    refine .word hlexes hmore fun at' =>
      ⟨openNode column (.numericLiteral (.finite negative code)) frames, ?_, h⟩
    rw [step, stepAttribute]
    simp [Token.isWord, hvalue, openWith]

/-- The attributes of a node, before what closes it if it has no fields. -/
theorem attributes_carries {label : Label} (hlabel : label.isWritable = true)
    (hmore : Delimited more) (hclose : label.fields = [] → more = [Text.ascii ')'])
    (h : Carries more (openNode column label frames) target) :
    Carries (writeAttributes label ++ more) (.attribute column label.kind frames) target := by
  -- a kind without attributes: the next token is read as inside the node
  have hplain : writeAttributes label = [] → label = .blank label.kind →
      (∀ t, stepAttribute t column label.kind frames =
        stepInside t (.node column (.blank label.kind) [] label.kind.fields) frames) →
      Carries (writeAttributes label ++ more) (.attribute column label.kind frames) target := by
    intro hnone hblank hstep
    rw [hnone]
    refine .congr (by simp) (by simp [openNode]) (fun t => ?_) h
    rw [openNode, step, step, hstep, ← hblank]
    rfl
  cases label with
  | identifierExpression name => exact name_carries name (fun _ => rfl) hmore h
  | bindingIdentifier name => exact name_carries name (fun _ => rfl) hmore h
  | functionDeclaration name => exact name_carries name (fun _ => rfl) hmore h
  | staticMemberExpression property => exact name_carries property (fun _ => rfl) hmore h
  | breakStatement goal =>
    obtain rfl := hclose rfl
    exact jump_carries hlabel (fun _ => rfl) h
  | continueStatement goal =>
    obtain rfl := hclose rfl
    exact jump_carries hlabel (fun _ => rfl) h
  | binaryExpression operator => exact operator_carries hlabel (fun _ => rfl) hmore h
  | unaryExpression operator => exact operator_carries hlabel (fun _ => rfl) hmore h
  | numericLiteral x => exact number_carries x hmore h
  | stringLiteral t =>
    refine .separator rfl (.word (lexes_quote t) hmore fun _ =>
      ⟨openNode column (.stringLiteral t) frames, ?_, h⟩)
    show openWith column frames ((stringOf _).map .stringLiteral) = _
    rw [stringOf, unquote?_quote]
    rfl
  | booleanLiteral b =>
    cases b with
    | false => exact .separator rfl (.word (lexes_name (by decide)) hmore fun _ => ⟨_, rfl, h⟩)
    | true => exact .separator rfl (.word (lexes_name (by decide)) hmore fun _ => ⟨_, rfl, h⟩)
  | _ => exact hplain rfl rfl fun _ => rfl

end Attributes

/-! ## Nodes -/

theorem delimited_writeAttributes (label : Label) : Delimited (writeAttributes label) := by
  have hblank : ∀ t, Delimited (Text.ascii ' ' :: t) := fun t => delimited_cons (by decide) t
  cases label with
  | breakStatement goal => cases goal <;> first | exact delimited_nil | exact hblank _
  | continueStatement goal => cases goal <;> first | exact delimited_nil | exact hblank _
  | _ => first | exact delimited_nil | exact hblank _

theorem delimited_writeFields (depth : Option Nat) (fields : List Field) (children : List Tree) :
    Delimited (writeFields depth fields children) := by
  rw [writeFields.eq_def]
  split
  · exact delimited_cons (by decide) _
  · exact delimited_nil

/-- What a list is written as in a field. -/
def listText (depth : Option Nat) (f : Field) : List Tree → Text
  | [] => Text.ofString "[]"
  | item :: items =>
    let line := Text.join (Text.ofString " ") (writeItems depth (item :: items))
    match depth with
    | some d =>
      if f.accepts = .statement then
        Text.ascii '[' :: (writeLines d (item :: items) ++ lineBreak d) ++ [Text.ascii ']']
      else Text.ascii '[' :: line ++ [Text.ascii ']']
    | none => Text.ascii '[' :: line ++ [Text.ascii ']']

theorem writeFields_list (depth : Option Nat) {f : Field} (hlist : f.isList = true)
    (items : List Tree) (fields : List Field) (children : List Tree) :
    writeFields depth (f :: fields) (.list items :: children) =
      Text.ascii ' ' :: listText depth f items ++ writeFields depth fields children := by
  rw [writeFields.eq_def, listText.eq_def]
  cases items with
  | nil => simp [hlist]
  | cons item items =>
    cases depth with
    | none => simp [hlist]
    | some d => simp [hlist]

theorem kind_name (kind : Kind) :
    isPlainName kind.name = true ∧ Kind.ofName? kind.name = some kind := by
  have hall : ∀ kind ∈ Kind.all,
      isPlainName kind.name = true ∧ Kind.ofName? kind.name = some kind := by decide
  exact hall kind (by cases kind <;> decide)

/-- A node with its kind, where a parenthesis opens it and the fields can be read. -/
theorem node_carries {label : Label} {children : List Tree} {depth : Option Nat}
    {frames : List Frame} (hlabel : label.isWritable = true)
    (hopen : ∀ column, step ⟨.openParen, [Text.ascii '('], column⟩ state =
      .ok (.kind column frames))
    (hfields : ∀ column, Carries (writeFields depth label.fields children)
      (openNode column label frames) (.inside (.node column label children.reverse []) frames))
    (hsupply : ∀ column, supply column label children frames = .ok target) :
    Carries (Text.ascii '(' :: label.kind.name ++ writeAttributes label ++
      writeFields depth label.fields children ++ [Text.ascii ')']) state target := by
  obtain ⟨hname, hkind⟩ := kind_name label.kind
  have hclosed : Delimited [Text.ascii ')'] := delimited_cons (by decide) []
  rw [List.append_assoc, List.append_assoc, List.cons_append]
  refine .bracket rfl fun column => ⟨_, hopen column, ?_⟩
  have hafter := (delimited_writeFields depth label.fields children).append hclosed
  refine .word (lexes_name hname) ((delimited_writeAttributes label).append hafter) fun _ =>
    ⟨.attribute column label.kind frames, ?_, ?_⟩
  · rw [step]
    simp [hkind]
  · refine attributes_carries hlabel hafter (fun hnone => by simp [hnone, writeFields]) ?_
    refine (hfields column).append hclosed (.bracket rfl fun _ => ⟨target, ?_, .refl⟩)
    rw [step, stepInside]
    simp [defaults, hsupply]

/-! ## Frames -/

/-- A frame waits for a node of a category. -/
structure Takes (frame : Frame) (category : Category) : Prop where
  accepts : frame.accepts? = some category
  begins : ∀ t frames, t.cls ≠ .closeParen → t.cls ≠ .closeBracket → t.cls ≠ .endOfInput →
    (category = .binding ∨ t.isWord "nil" = false) →
    stepInside t frame frames = beginChild t frame frames

theorem takes_list (f : Field) (done : List Tree) : Takes (.list f done) f.accepts := by
  refine ⟨rfl, fun t frames _ hbracket hend _ => ?_⟩
  simp [stepInside, hbracket, hend]

theorem takes_single {column : Nat} {label : Label} {done : List Tree} {f : Field}
    {todo : List Field} (hsingle : f.isList = false) (hbinding : f.accepts ≠ .binding) :
    Takes (.node column label done (f :: todo)) f.accepts := by
  refine ⟨rfl, fun t frames hparen _ _ hword => ?_⟩
  have hnil : t.isWord "nil" = false := hword.resolve_left hbinding
  simp [stepInside, hparen, hsingle, hnil]

theorem Takes.supply {frame : Frame} {category : Category} (h : Takes frame category)
    {label : Label} (hlabel : category.accepts label.kind = true) (column : Nat)
    (children : List Tree) (frames : List Frame) :
    supply column label children (frame :: frames) =
      .ok (.inside (frame.add (.node label children)) frames) := by
  simp [SExpression.supply, h.accepts, hlabel]

/-- Only nodes without children are written without their kind. -/
theorem shortForm?_fields {label : Label} {word : Text} (h : shortForm? label = some word) :
    label.fields = [] := by
  cases label <;> first | rfl | cases h

theorem ne_binding {category : Category} {kind : Kind} (h : category.accepts kind = true)
    (hkind : kind.isExpression = true) : category ≠ .binding := by
  rintro rfl
  rw [Category.accepts, beq_iff_eq] at h
  simp [h, Kind.isExpression] at hkind

theorem wordLabel_expression {category : Category} (h : category ≠ .binding) (t : Token) :
    wordLabel (some category) t = wordLabel none t := by
  simp [wordLabel, h]

/-- A name that is no keyword is read as a name. -/
theorem wordLabel_name {name : Text} (hname : reserved.contains name = false) (column : Nat) :
    wordLabel none ⟨.identifier, name, column⟩ = .identifierExpression name := by
  have hne : ∀ word : String, Text.ofString word ∈ reserved → name ≠ Text.ofString word := by
    rintro word hmem rfl
    simp [hmem] at hname
  simp [wordLabel, Token.isWord, hne "true" (by decide), hne "false" (by decide),
    hne "null" (by decide)]

/-- A word that reads as a label.  Where a binding is expected, `nil` is a name too. -/
theorem Takes.word {frame : Frame} {category : Category} (h : Takes frame category)
    {label : Label} (hlabel : category.accepts label.kind = true) {name : Text}
    (hname : isPlainName name = true) (hnil : category = .binding ∨ name ≠ Text.ofString "nil")
    (hword : ∀ column, wordLabel (some category) ⟨.identifier, name, column⟩ = label)
    (frames : List Frame) :
    Carries name (.inside frame frames) (.inside (frame.add (.node label [])) frames) := by
  refine .last (lexes_name hname) fun column => ?_
  rw [step, h.begins _ _ (by simp) (by simp) (by simp)
    (hnil.imp_right fun hne => by simpa [Token.isWord] using hne)]
  simp only [beginChild, h.accepts, hword, h.supply hlabel column [] frames]

/-- A child that is written without its kind. -/
theorem short_carries {label : Label} {word : Text} (hshort : shortForm? label = some word)
    {frame : Frame} {category : Category} (hframe : Takes frame category)
    (hlabel : category.accepts label.kind = true) (frames : List Frame) :
    Carries word (.inside frame frames) (.inside (frame.add (.node label [])) frames) := by
  have hsupply := fun column => hframe.supply hlabel column [] frames
  cases label with
  | identifierExpression name =>
    change (if _ then some name else none) = some word at hshort
    split at hshort
    · rename_i hname
      obtain rfl := Option.some.inj hshort
      rw [Bool.and_eq_true, Bool.not_eq_true'] at hname
      -- where an expression may be missing, `nil` says so, and the name is written with its kind
      have hnil : name ≠ Text.ofString "nil" := by
        rintro rfl
        exact absurd hname.2 (by decide)
      refine hframe.word hlabel hname.1 (.inr hnil) (fun column => ?_) frames
      rw [wordLabel_expression (ne_binding hlabel rfl), wordLabel_name hname.2]
    · cases hshort
  | bindingIdentifier name =>
    change (if _ then some name else none) = some word at hshort
    split at hshort
    · rename_i hname
      obtain rfl := Option.some.inj hshort
      have hbinding : category = .binding := by
        cases category <;> first | rfl | cases hlabel
      exact hframe.word hlabel hname (.inl hbinding) (fun column => by simp [wordLabel, hbinding])
        frames
    · cases hshort
  | numericLiteral x =>
    cases x with
    | finite negative code =>
      obtain rfl := Option.some.inj hshort
      obtain ⟨hlexes, hvalue⟩ := lexes_number negative code
      refine .last hlexes fun column => ?_
      rw [step, hframe.begins _ _ (by simp) (by simp) (by simp) (.inr rfl)]
      simp only [beginChild, hvalue, hsupply]
    | _ => cases hshort
  | stringLiteral t =>
    obtain rfl := Option.some.inj hshort
    refine .last (lexes_quote t) fun column => ?_
    rw [step, hframe.begins _ _ (by simp) (by simp) (by simp) (.inr rfl)]
    simp only [beginChild, unquote?_quote, hsupply]
  | booleanLiteral b =>
    obtain rfl := Option.some.inj hshort
    have hkeyword := fun t => wordLabel_expression (ne_binding hlabel rfl) t
    cases b with
    | false =>
      exact hframe.word hlabel (by decide) (.inr (by decide)) (fun _ => hkeyword _) frames
    | true =>
      exact hframe.word hlabel (by decide) (.inr (by decide)) (fun _ => hkeyword _) frames
  | nullLiteral =>
    obtain rfl := Option.some.inj hshort
    exact hframe.word hlabel (by decide) (.inr (by decide))
      (fun _ => wordLabel_expression (ne_binding hlabel rfl) _) frames
  | _ => cases hshort

/-! ## Lists -/

theorem Carries.separators {blanks : Text} (hblanks : ∀ b ∈ blanks, isSeparator b = true)
    (h : Carries text state target) : Carries (blanks ++ text) state target := by
  induction blanks with
  | nil => exact h
  | cons b blanks ih =>
    obtain ⟨hb, hblanks⟩ := List.forall_mem_cons.mp hblanks
    exact .separator hb (ih hblanks)

theorem isSeparator_lineBreak {depth : Nat} {b : UInt8} (h : b ∈ lineBreak depth) :
    isSeparator b = true := by
  have hblanks : ∀ b ∈ Text.ofString "  ", isSeparator b = true :=
    List.all_eq_true.mp (by decide)
  rcases List.mem_cons.mp h with rfl | h
  · decide
  · obtain ⟨part, hpart, hb⟩ := List.mem_flatten.mp h
    rw [(List.mem_replicate.mp hpart).2] at hb
    exact hblanks b hb

/-- The parts of a list with a blank between each two. -/
theorem join_cons (first : Text) (others : List Text) :
    Text.join (Text.ofString " ") (first :: others) =
      first ++ others.flatMap (Text.ascii ' ' :: ·) := by
  have hblank : Text.ofString " " = [Text.ascii ' '] := by decide
  induction others generalizing first with
  | nil => simp [Text.join, List.intercalate]
  | cons second others ih =>
    rw [Text.join, List.intercalate_cons_cons, ← Text.join, ih, hblank]
    simp

theorem delimited_blanks (parts : List Text) :
    Delimited (parts.flatMap (Text.ascii ' ' :: ·)) := by
  cases parts with
  | nil => exact delimited_nil
  | cons part parts => exact delimited_cons (by decide) _

theorem delimited_writeLines (depth : Nat) (items : List Tree) :
    Delimited (writeLines depth items) := by
  cases items with
  | nil => exact delimited_nil
  | cons item items =>
    rw [writeLines, lineBreak]
    exact delimited_cons (by decide) _

/-- Items on lines of their own, before the line of the bracket. -/
theorem lines_carries (depth : Nat) (h : Carries text state target) :
    Carries (text ++ lineBreak depth) state target := by
  have hbreak : Carries (lineBreak depth ++ []) target target :=
    .separators (fun _ => isSeparator_lineBreak) .refl
  rw [List.append_nil] at hbreak
  exact .append (delimited_cons (by decide) _) h hbreak

/-- A list in brackets, where the items can be read. -/
theorem list_carries {column : Nat} {label : Label} {done items : List Tree} {f : Field}
    {todo : List Field} {frames : List Frame} (hlist : f.isList = true)
    (h : Carries text (.inside (.list f []) (.node column label done (f :: todo) :: frames))
      (.inside (.list f items.reverse) (.node column label done (f :: todo) :: frames)))
    (hdone : Carries more (.inside (.node column label (.list items :: done) todo) frames) target) :
    Carries (Text.ascii '[' :: text ++ [Text.ascii ']'] ++ more)
      (.inside (.node column label done (f :: todo)) frames) target := by
  have hclosed : Delimited (Text.ascii ']' :: more) := delimited_cons (by decide) more
  rw [List.append_assoc, List.cons_append]
  refine .bracket rfl fun _ =>
    ⟨.inside (.list f []) (.node column label done (f :: todo) :: frames), ?_, ?_⟩
  · simp [step, stepInside, hlist]
  · refine h.append hclosed (.bracket rfl fun _ => ⟨_, ?_, hdone⟩)
    simp [step, stepInside, Frame.add]

/-! ## Trees -/

/-- Only lists hold bindings. -/
theorem accepts_ne_binding {kind : Kind} {f : Field} (hf : f ∈ kind.fields)
    (hsingle : f.isList = false) : f.accepts ≠ .binding := by
  have hall : ∀ kind ∈ Kind.all, ∀ f ∈ kind.fields, f.isList = false → f.accepts ≠ .binding := by
    decide
  exact hall kind (by cases kind <;> decide) f hf hsingle

mutual

/-- What a child is written as takes a frame that waits for it to the frame with the child. -/
theorem write_carries (depth : Option Nat) : ∀ (t : Tree), t.allNodes Tree.nodeWritable = true →
    ∀ {frame : Frame} {category : Category}, Takes frame category → t.isIn category = true →
    ∀ frames, Carries (write depth true t) (.inside frame frames) (.inside (frame.add t) frames)
  | .node label children, hnodes, frame, category, hframe, hin, frames => by
    obtain ⟨hnode, hbelow⟩ := allNodes_node.mp hnodes
    obtain ⟨hlabel, hlength, hfits⟩ := nodeWritable_iff.mp hnode
    have hcategory : category.accepts label.kind = true := by
      simpa [Tree.isIn, Tree.kind?] using hin
    rw [write, if_pos rfl]
    cases hshort : shortForm? label with
    | some word =>
      obtain rfl : children = [] := by
        rw [shortForm?_fields hshort] at hlength
        exact List.eq_nil_of_length_eq_zero hlength
      exact short_carries hshort hframe hcategory frames
    | none =>
      refine node_carries hlabel (fun column => ?_) (fun column => ?_)
        fun column => hframe.supply hcategory column children frames
      · rw [step, hframe.begins _ _ (by simp) (by simp) (by simp) (.inr rfl)]
        rfl
      · have hfields := writeFields_carries depth children label.fields hlength hfits
          (allNodesOf_iff.mpr hbelow) (fun f hf => accepts_ne_binding hf) column label []
          (frame :: frames)
        rwa [List.append_nil] at hfields

theorem writeFields_carries (depth : Option Nat) : ∀ (children : List Tree) (fields : List Field),
    children.length = fields.length →
    ((fields.zip children).all fun (f, child) => f.admits .loose child) = true →
    allNodesOf Tree.nodeWritable children = true →
    (∀ f ∈ fields, f.isList = false → f.accepts ≠ .binding) →
    ∀ column label done frames, Carries (writeFields depth fields children)
      (.inside (.node column label done fields) frames)
      (.inside (.node column label (children.reverse ++ done) []) frames)
  | [], [], _, _, _, _, column, label, done, frames => by
    rw [writeFields]
    · exact .refl
    · simp
  | child :: children, f :: fields, hlength, hfits, hnodes, hbinding, column, label, done,
      frames => by
    rw [List.zip_cons_cons, List.all_cons, Bool.and_eq_true] at hfits
    rw [allNodesOf, Bool.and_eq_true] at hnodes
    obtain ⟨hbinding, hbindings⟩ := List.forall_mem_cons.mp hbinding
    have hrest := writeFields_carries depth children fields (by simpa using hlength) hfits.2
      hnodes.2 hbindings column label (child :: done) frames
    have hdelimited := delimited_writeFields depth fields children
    have hadmits : f.admits .loose child = true := hfits.1
    rw [List.reverse_cons, List.append_assoc, List.singleton_append]
    cases child with
    | missing =>
      have hsingle : f.isList = false := by simpa [Field.admits, Strictness.loose] using hadmits
      rw [writeFields, hsingle]
      refine .separator rfl (.word (lexes_name (by decide)) hdelimited fun _ => ⟨_, ?_, hrest⟩)
      simp [step, stepInside, hsingle, Token.isWord, Frame.add]
    | list items =>
      rw [Field.admits, Bool.and_eq_true] at hadmits
      rw [Tree.allNodes] at hnodes
      obtain ⟨hlist, hin⟩ := hadmits
      rw [writeFields_list depth hlist, List.cons_append]
      refine .separator rfl ?_
      cases items with
      | nil => exact list_carries hlist .refl hrest
      | cons item items =>
        -- the items in one line; with a depth they may get a line each
        have hline : Carries (Text.join (Text.ofString " ") (writeItems depth (item :: items)))
            (.inside (.list f []) (.node column label done (f :: fields) :: frames))
            (.inside (.list f (item :: items).reverse)
              (.node column label done (f :: fields) :: frames)) := by
          rw [List.all_cons, Bool.and_eq_true] at hin
          rw [allNodesOf, Bool.and_eq_true] at hnodes
          rw [writeItems, join_cons, List.reverse_cons]
          exact .append (delimited_blanks _)
            (write_carries depth item hnodes.1.1 (takes_list f []) hin.1 _)
            (writeItems_carries depth f items hin.2 hnodes.1.2 [item] _)
        cases depth with
        | none => exact list_carries hlist hline hrest
        | some d =>
          have hlines := writeLines_carries d f (item :: items) hin hnodes.1 []
            (.node column label done (f :: fields) :: frames)
          rw [List.append_nil] at hlines
          rw [listText]
          split
          · exact list_carries hlist (lines_carries d hlines) hrest
          · exact list_carries hlist hline hrest
    | node label' below =>
      rw [Field.admits, Bool.and_eq_true, Bool.not_eq_true'] at hadmits
      obtain ⟨hsingle, hin⟩ := hadmits
      have htakes : Takes (.node column label done (f :: fields)) f.accepts :=
        takes_single hsingle (hbinding hsingle)
      have hchild := write_carries depth (.node label' below) hnodes.1 htakes hin frames
      rw [writeFields, hsingle]
      · exact .append hdelimited (.separator rfl hchild) hrest
      · simp
      · simp

theorem writeItems_carries (depth : Option Nat) (f : Field) : ∀ (items : List Tree),
    items.all (·.isIn f.accepts) = true → allNodesOf Tree.nodeWritable items = true →
    ∀ done frames, Carries ((writeItems depth items).flatMap (Text.ascii ' ' :: ·))
      (.inside (.list f done) frames) (.inside (.list f (items.reverse ++ done)) frames)
  | [], _, _, done, frames => .refl
  | item :: items, hin, hnodes, done, frames => by
    rw [List.all_cons, Bool.and_eq_true] at hin
    rw [allNodesOf, Bool.and_eq_true] at hnodes
    have hitem := write_carries depth item hnodes.1 (takes_list f done) hin.1 frames
    have hitems := writeItems_carries depth f items hin.2 hnodes.2 (item :: done) frames
    rw [List.reverse_cons, List.append_assoc, List.singleton_append, writeItems,
      List.flatMap_cons]
    exact .append (delimited_blanks _) (.separator rfl hitem) hitems

theorem writeLines_carries (depth : Nat) (f : Field) : ∀ (items : List Tree),
    items.all (·.isIn f.accepts) = true → allNodesOf Tree.nodeWritable items = true →
    ∀ done frames, Carries (writeLines depth items)
      (.inside (.list f done) frames) (.inside (.list f (items.reverse ++ done)) frames)
  | [], _, _, done, frames => .refl
  | item :: items, hin, hnodes, done, frames => by
    rw [List.all_cons, Bool.and_eq_true] at hin
    rw [allNodesOf, Bool.and_eq_true] at hnodes
    have hitem := write_carries (some (depth + 1)) item hnodes.1 (takes_list f done) hin.1 frames
    have hitems := writeLines_carries depth f items hin.2 hnodes.2 (item :: done) frames
    rw [List.reverse_cons, List.append_assoc, List.singleton_append, writeLines]
    exact .append (delimited_writeLines depth items)
      (.separators (fun _ => isSeparator_lineBreak) hitem) hitems

end

end SExpression

open SExpression

/-- A writable tree in either form takes the reader from the start to the end. -/
theorem root_carries {t : Tree} (h : t.isWritable = true) (depth : Option Nat) :
    Carries (write depth false t) .start (.finished t) := by
  rw [Tree.isWritable, Bool.and_eq_true] at h
  cases t with
  | node label children =>
    obtain ⟨hnode, hbelow⟩ := allNodes_node.mp h.2
    obtain ⟨hlabel, hlength, hfits⟩ := nodeWritable_iff.mp hnode
    rw [write, if_neg (by simp)]
    refine node_carries hlabel (fun _ => rfl) (fun column => ?_) fun _ => rfl
    have hfields := writeFields_carries depth children label.fields hlength hfits
      (allNodesOf_iff.mpr hbelow) (fun f hf => accepts_ne_binding hf) column label [] []
    rwa [List.append_nil] at hfields
  | _ => simp [Tree.kind?] at h

/-- Reading a writable tree from what was written gives the tree. -/
theorem read_write {t : Tree} (h : t.isWritable = true) (depth : Option Nat) :
    Tree.read (write depth false t) = .ok t := by
  obtain ⟨column, hread⟩ := root_carries h depth [] 0 delimited_nil
  obtain ⟨tokens, hscan, heq⟩ := hread [] rfl
  rw [List.append_nil] at hscan
  rw [Tree.read, scan, hscan]
  exact heq

end ScriptSimplifier
