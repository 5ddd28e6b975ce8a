import ScriptSimplifier.Proofs.Numeric.Numerals
import ScriptSimplifier.SExpression.Reader
import ScriptSimplifier.SExpression.Writer

/-!
# Scanning what is written

Every token that is written is followed by the end of the text, a separator or a closing bracket.
Before such a text, names, operators, quoted texts and numbers are taken as a whole and as what they
are (`lexes_name`, `lexes_operator`, `lexes_quote`, `lexes_number`), and scanning goes on behind
them (`scanFrom_lexes`).
-/

namespace ScriptSimplifier

namespace SExpression

/-! ## Where tokens end -/

/-- A byte that ends every token. -/
def isDelimiter (b : UInt8) : Bool :=
  isSeparator b || b == Text.ascii ')' || b == Text.ascii ']'

/-- The end of a text, or a text that starts with a delimiter. -/
def Delimited (t : Text) : Prop := ∀ b ∈ t.head?, isDelimiter b = true

theorem Delimited.append {t u : Text} (ht : Delimited t) (hu : Delimited u) :
    Delimited (t ++ u) := by
  cases t with
  | nil => exact hu
  | cons b t => exact ht

theorem delimited_nil : Delimited [] := by simp [Delimited]

theorem delimited_cons {b : UInt8} (h : isDelimiter b = true) (t : Text) : Delimited (b :: t) := by
  intro c hc
  obtain rfl : b = c := by simpa using hc
  exact h

theorem isSeparator_iff {b : UInt8} : isSeparator b = true ↔
    b ∈ [Text.ascii ' ', Text.ascii '\t', Text.ascii '\n', Text.ascii '\r'] := by
  simp [isSeparator, or_assoc]

theorem isDelimiter_iff {b : UInt8} : isDelimiter b = true ↔
    b ∈ [Text.ascii ' ', Text.ascii '\t', Text.ascii '\n', Text.ascii '\r', Text.ascii ')',
      Text.ascii ']'] := by
  simp [isDelimiter, isSeparator, or_assoc]

/-- No delimiter is part of a name, a number or an operator. -/
theorem isDelimiter_spec {b : UInt8} (h : isDelimiter b = true) :
    Text.isIdentifierPart b = false ∧ b ≠ Text.ascii '.' ∧ ∀ op ∈ operators, b ∉ op := by
  rw [isDelimiter_iff] at h
  simp only [List.mem_cons, List.not_mem_nil, or_false] at h
  rcases h with rfl | rfl | rfl | rfl | rfl | rfl <;> decide

theorem Delimited.ends {t : Text} (h : Delimited t) : Numeral.Ends t :=
  fun b hb => ⟨(isDelimiter_spec (h b hb)).1, (isDelimiter_spec (h b hb)).2.1⟩

/-! ## Tokens -/

/-- A byte of a class is none that the class leaves out. -/
theorem ne_of_class {p : UInt8 → Bool} {b c : UInt8} (h : p b = true) (hc : p c = false) :
    b ≠ c := by
  rintro rfl
  rw [h] at hc
  cases hc

theorem beq_of_class {p : UInt8 → Bool} {b c : UInt8} (h : p b = true) (hc : p c = false) :
    (b == c) = false :=
  beq_false_of_ne (ne_of_class h hc)

/-- A byte of a class that leaves out all separators is no separator. -/
theorem isSeparator_of_class {p : UInt8 → Bool} {b : UInt8} (h : p b = true)
    (hp : ∀ c ∈ [Text.ascii ' ', Text.ascii '\t', Text.ascii '\n', Text.ascii '\r'], p c = false) :
    isSeparator b = false := by
  rw [← Bool.not_eq_true, isSeparator_iff]
  exact fun hb => ne_of_class h (hp b hb) rfl

/-- A digit is no letter and starts no name. -/
theorem isIdentifierStart_of_isDigit {b : UInt8} (h : Text.isDigit b = true) :
    Text.isIdentifierStart b = false := by
  have hnine : (Text.ascii '9').toNat = 57 := by decide
  have hupper : (Text.ascii 'A').toNat = 65 := by decide
  have hlower : (Text.ascii 'a').toNat = 97 := by decide
  have hletter : Text.isLetter b = false := by
    simp only [Text.isDigit, Text.isLetter, Bool.and_eq_true, decide_eq_true_eq,
      Bool.or_eq_false_iff, Bool.and_eq_false_iff, decide_eq_false_iff_not,
      UInt8.le_iff_toNat_le] at h ⊢
    omega
  rw [Text.isIdentifierStart, hletter, beq_of_class h (by decide), beq_of_class h (by decide)]
  rfl

theorem isDigit_of_isIdentifierStart {b : UInt8} (h : Text.isIdentifierStart b = true) :
    Text.isDigit b = false := by
  rw [← Bool.not_eq_true]
  intro hdigit
  rw [isIdentifierStart_of_isDigit hdigit] at h
  cases h

/-- A byte that starts a number. -/
def startsNumber (b : UInt8) : Bool := Text.isDigit b || b == Text.ascii '.'

theorem startsNumber_iff {b : UInt8} :
    startsNumber b = true ↔ Text.isDigit b = true ∨ b = Text.ascii '.' := by
  rw [startsNumber, Bool.or_eq_true, beq_iff_eq]

theorem isIdentifierStart_of_startsNumber {b : UInt8} (h : startsNumber b = true) :
    Text.isIdentifierStart b = false := by
  rcases startsNumber_iff.mp h with hdigit | rfl
  · exact isIdentifierStart_of_isDigit hdigit
  · decide

theorem bracketClass?_eq_none_iff {b : UInt8} : bracketClass? b = none ↔
    b ∉ [Text.ascii '(', Text.ascii ')', Text.ascii '[', Text.ascii ']'] := by
  rw [bracketClass?]
  split_ifs <;> simp_all

/-- A text is taken as a token of a class wherever a delimiter follows. -/
def Lexes (word : Text) (cls : TokenClass) : Prop :=
  ∃ b more, word = b :: more ∧
    ∀ rest, Delimited rest → front? b (more ++ rest) = some (some cls, word.length)

set_option maxRecDepth 2000 in
theorem lexes_name {name : Text} (h : isPlainName name = true) : Lexes name .identifier := by
  have hfront : ∀ b, Text.isIdentifierStart b = true →
      (b == Text.ascii ';') = false ∧ isSeparator b = false ∧ (b == Text.ascii '"') = false :=
    fun _ hb => ⟨beq_of_class hb (by decide), isSeparator_of_class hb (by decide),
      beq_of_class hb (by decide)⟩
  rw [isPlainName, Bool.and_eq_true] at h
  obtain ⟨hstart, hparts⟩ := h
  cases name with
  | nil => simp at hstart
  | cons b more =>
    simp only [List.head?_cons, Option.any_some] at hstart
    obtain ⟨_, hmore⟩ := List.forall_mem_cons.mp (List.all_eq_true.mp hparts)
    obtain ⟨hcomment, hseparator, hquote⟩ := hfront b hstart
    refine ⟨b, more, rfl, fun rest hrest => ?_⟩
    have hlength : (more ++ rest).takeWhile Text.isIdentifierPart = more := by
      rw [List.takeWhile_append_of_pos hmore]
      cases rest with
      | nil => simp
      | cons c rest => simp [(isDelimiter_spec (hrest c rfl)).1]
    simp [front?, hcomment, hseparator, hquote, hstart, hlength]

/-! ### Quoted texts -/

theorem stringLength?_cons {b : UInt8} (hquote : b ≠ Text.ascii '"')
    (hbackslash : b ≠ Text.ascii '\\') (rest : Text) :
    stringLength? (b :: rest) = (stringLength? rest).map (· + 1) := by
  cases rest with
  | nil => simp [stringLength?, hquote]
  | cons c rest => simp [stringLength?, hquote, hbackslash]

theorem stringLength?_ordinary {bytes : Text} (h : ∀ b ∈ bytes, Quoted.isOrdinary b = true)
    (rest : Text) :
    stringLength? (bytes ++ rest) = (stringLength? rest).map (· + bytes.length) := by
  induction bytes with
  | nil => simp
  | cons b bytes ih =>
    obtain ⟨hb, hbytes⟩ := List.forall_mem_cons.mp h
    simp only [Quoted.isOrdinary, Bool.and_eq_true, bne_iff_ne, ne_eq] at hb
    rw [List.cons_append, stringLength?_cons hb.1.1 hb.1.2, ih hbytes]
    simp [Function.comp_def, Nat.add_assoc]

/-- The closing quote is not found in what a glyph is written as. -/
theorem stringLength?_writeGlyph (g : Glyph) (rest : Text) :
    stringLength? (Quoted.writeGlyph g ++ rest) =
      (stringLength? rest).map (· + (Quoted.writeGlyph g).length) := by
  rcases Quoted.writeGlyph_cases g with
    ⟨c, -, hwrite, hordinary⟩ | ⟨letter, more, hwrite, hescapes⟩
  · rw [hwrite, stringLength?_ordinary hordinary]
  · have hquote : (Text.ascii '\\' == Text.ascii '"') = false := by decide
    rw [hwrite, List.cons_append, List.cons_append, stringLength?, hquote,
      stringLength?_ordinary hescapes.ordinary]
    simp [Function.comp_def, Nat.add_assoc]

theorem stringLength?_writeGlyphs (glyphs : List Glyph) (rest : Text) :
    stringLength? (glyphs.flatMap Quoted.writeGlyph ++ Text.ascii '"' :: rest) =
      some ((glyphs.flatMap Quoted.writeGlyph).length + 1) := by
  induction glyphs with
  | nil => cases rest <;> simp [stringLength?]
  | cons g glyphs ih =>
    rw [List.flatMap_cons, List.append_assoc, stringLength?_writeGlyph, ih]
    simp
    omega

theorem lexes_quote (t : Text) : Lexes t.quote .string := by
  refine ⟨Text.ascii '"', _, rfl, fun rest _ => ?_⟩
  have hcomment : (Text.ascii '"' == Text.ascii ';') = false := by decide
  have hseparator : isSeparator (Text.ascii '"') = false := by decide
  rw [List.append_assoc, List.singleton_append, front?, hcomment, hseparator,
    stringLength?_writeGlyphs]
  simp [Text.quote]

/-! ### Numbers and operators -/

/-- A byte that starts a number or an operator. -/
def isSign (b : UInt8) : Bool :=
  b != Text.ascii ';' && !isSeparator b && b != Text.ascii '"' && !Text.isIdentifierStart b &&
    (bracketClass? b).isNone

set_option maxRecDepth 2000 in
theorem isSign_of_startsNumber {b : UInt8} (h : startsNumber b = true) : isSign b = true := by
  have hbracket : bracketClass? b = none := by
    have hnone : ∀ c ∈ [Text.ascii '(', Text.ascii ')', Text.ascii '[', Text.ascii ']'],
        startsNumber c = false := by decide
    exact bracketClass?_eq_none_iff.mpr fun hb => ne_of_class h (hnone b hb) rfl
  have hcomment : (b == Text.ascii ';') = false := beq_of_class h (by decide)
  have hquote : (b == Text.ascii '"') = false := beq_of_class h (by decide)
  have hseparator : isSeparator b = false := isSeparator_of_class h (by decide)
  simp [isSign, bne, hcomment, hquote, hseparator, isIdentifierStart_of_startsNumber h, hbracket]

theorem front?_sign {b : UInt8} (h : isSign b = true) (rest : Text) :
    front? b rest =
      match numberLength? (b :: rest) with
      | some n => some (some .number, n)
      | none =>
        (operators.find? (·.isPrefixOf (b :: rest))).map fun op => (some .operator, op.length) := by
  simp only [isSign, Bool.and_eq_true, Bool.not_eq_true', bne_iff_ne, ne_eq,
    Option.isNone_iff_eq_none] at h
  obtain ⟨⟨⟨⟨hcomment, hseparator⟩, hquote⟩, hstart⟩, hbracket⟩ := h
  simp only [front?, beq_iff_eq, hcomment, hseparator, hquote, hstart, hbracket, if_false,
    Bool.false_eq_true]
  cases numberLength? (b :: rest) <;> rfl

/-- No numeral starts with anything else than a digit or a point. -/
theorem scan?_eq_none {b : UInt8} (hdigit : Text.isDigit b = false) (hpoint : b ≠ Text.ascii '.')
    (t : Text) : Numeral.scan? (b :: t) = none := by
  by_contra h
  obtain ⟨result, hresult⟩ := Option.ne_none_iff_exists'.mp h
  rcases Numeral.scan?_front hresult with hfront | hfront
  · simp [hdigit] at hfront
  · exact hpoint hfront

theorem scan?_delimited {t : Text} (h : Delimited t) : Numeral.scan? t = none := by
  cases t with
  | nil => decide
  | cons b t => exact scan?_eq_none (h.ends.isDigit b rfl) (h.ends b rfl).2 t

/-- The text of a number is taken as a whole, and it spells the number. -/
theorem lexes_number (negative : Bool) (code : Magnitude) :
    Lexes (Label.numberText (.finite negative code)) .number ∧
      numberValue (Label.numberText (.finite negative code)) = .finite negative code := by
  obtain ⟨body, d, htext, ⟨n, hscan, rfl⟩, hdouble⟩ := numberText_spec negative code
  have hread : Numeral.read? body = some n := by
    have hwhole := hscan [] (by simp [Numeral.Ends])
    rw [List.append_nil] at hwhole
    simp [Numeral.read?, hwhole]
  have hempty : Numeral.scan? [] = none := by decide
  have hdelimited : ∀ {rest}, Delimited rest → Numeral.scan? (body ++ rest) = some (n, rest) :=
    fun hrest => hscan _ hrest.ends
  rw [htext]
  cases negative with
  | true =>
    refine ⟨⟨Text.ascii '-', body, rfl, fun rest hrest => ?_⟩, ?_⟩
    · rw [front?_sign (by decide), numberLength?, hdelimited hrest]
      simp
    · simp [numberValue, hread, hdouble]
  | false =>
    cases body with
    | nil => simp [Numeral.read?, hempty] at hread
    | cons b more =>
      have hfront := startsNumber_iff.mpr
        (Numeral.scan?_front (hscan [] (by simp [Numeral.Ends])))
      have hsign := isSign_of_startsNumber hfront
      have hminus : (b == Text.ascii '-') = false := beq_of_class hfront (by decide)
      refine ⟨⟨b, more, rfl, fun rest hrest => ?_⟩, ?_⟩
      · have hnumeral := hdelimited hrest
        rw [List.cons_append] at hnumeral
        rw [front?_sign hsign, numberLength?, hminus, hnumeral]
        simp
        omega
      · simp [numberValue, hminus, hread, hdouble]

/-- What follows an operator does not continue it. -/
theorem isPrefixOf_append {op rest : Text} (hop : ∀ b, isDelimiter b = true → b ∉ op)
    (hrest : Delimited rest) (word : Text) : op.isPrefixOf (word ++ rest) = op.isPrefixOf word := by
  induction op generalizing word with
  | nil => simp
  | cons c op ih =>
    have hop' : ∀ b, isDelimiter b = true → b ∉ op := fun b hb hmem => hop b hb (.tail c hmem)
    cases word with
    | nil =>
      cases rest with
      | nil => rfl
      | cons b rest =>
        have hne : c ≠ b := by
          rintro rfl
          exact hop c (hrest c rfl) (.head op)
        simp [List.isPrefixOf, hne]
    | cons b word => simp [List.isPrefixOf, ih hop' word]

/-- Whether an operator starts like one, and is found again. -/
def spelled : Text → Bool
  | [] => false
  | b :: more => isSign b && !Text.isDigit b && b != Text.ascii '.' &&
      (b != Text.ascii '-' || more.isEmpty) &&
      operators.find? (·.isPrefixOf (b :: more)) == some (b :: more)

/-- No operator begins as a number does but the minus, and none is found at the front of an operator
before the operator itself. -/
theorem operators_spec {b : UInt8} {more : Text} (h : b :: more ∈ operators) :
    isSign b = true ∧ Text.isDigit b = false ∧ b ≠ Text.ascii '.' ∧
      (b = Text.ascii '-' → more = []) ∧
      operators.find? (·.isPrefixOf (b :: more)) = some (b :: more) := by
  have hall : (operators.all spelled) = true := by decide
  have hop := List.all_eq_true.mp hall (b :: more) h
  simp only [spelled, Bool.and_eq_true, Bool.or_eq_true, Bool.not_eq_true', bne_iff_ne, beq_iff_eq,
    List.isEmpty_iff, ne_eq] at hop
  obtain ⟨⟨⟨⟨hsign, hdigit⟩, hpoint⟩, hminus⟩, hfind⟩ := hop
  exact ⟨hsign, hdigit, hpoint, fun heq => hminus.resolve_left (not_not_intro heq), hfind⟩

theorem lexes_operator {op : Text} (h : op ∈ operators) : Lexes op .operator := by
  cases op with
  | nil => exact absurd h (by decide)
  | cons b more =>
    obtain ⟨hsign, hdigit, hpoint, hminus, hfind⟩ := operators_spec h
    refine ⟨b, more, rfl, fun rest hrest => ?_⟩
    have hnumber : numberLength? (b :: (more ++ rest)) = none := by
      rw [numberLength?]
      split
      · rename_i heq
        obtain rfl : more = [] := hminus (by simpa using heq)
        simp [scan?_delimited hrest]
      · simp [scan?_eq_none hdigit hpoint]
    have hfind' : operators.find? (·.isPrefixOf (b :: (more ++ rest))) = some (b :: more) := by
      have hsame : ∀ op ∈ operators,
          op.isPrefixOf (b :: (more ++ rest)) = op.isPrefixOf (b :: more) :=
        fun op hop =>
          isPrefixOf_append (fun c hc => (isDelimiter_spec hc).2.2 op hop) hrest (b :: more)
      rw [← List.head?_filter, List.filter_congr hsame, List.head?_filter, hfind]
    rw [front?_sign hsign, hnumber, hfind']
    rfl

/-! ## Scanning on -/

theorem scanFrom_skip (column skip : Nat) (t : Text) :
    ∃ column', scanFrom column skip t = scanFrom column' 0 (t.drop skip) := by
  induction t generalizing column skip with
  | nil => exact ⟨column, by simp [scanFrom]⟩
  | cons b t ih =>
    cases skip with
    | zero => exact ⟨column, rfl⟩
    | succ skip =>
      rw [scanFrom, List.drop_succ_cons]
      exact ih _ _

/-- A token is taken and scanning goes on behind it. -/
theorem scanFrom_lexes {word rest : Text} {cls : TokenClass} (h : Lexes word cls)
    (hrest : Delimited rest) (column : Nat) : ∃ at' column', ∀ tokens,
      scanFrom column' 0 rest = .ok tokens →
        scanFrom column 0 (word ++ rest) = .ok (⟨cls, word, at'⟩ :: tokens) := by
  obtain ⟨b, more, rfl, hfront⟩ := h
  obtain ⟨column', hskip⟩ := scanFrom_skip (nextColumn column b) more.length (more ++ rest)
  rw [List.drop_left] at hskip
  refine ⟨nextColumn column b, column', fun tokens htokens => ?_⟩
  rw [List.cons_append, scanFrom, hfront rest hrest]
  simp [hskip, htokens, bind, Except.bind, pure, Except.pure]

set_option maxRecDepth 2000 in
/-- A bracket is taken whatever follows. -/
theorem scanFrom_bracket {b : UInt8} {cls : TokenClass} (h : bracketClass? b = some cls)
    (rest : Text) (column : Nat) :
    scanFrom column 0 (b :: rest) = (scanFrom (nextColumn column b) 0 rest).map
      (⟨cls, [b], nextColumn column b⟩ :: ·) := by
  have hbrackets : ∀ b ∈ [Text.ascii '(', Text.ascii ')', Text.ascii '[', Text.ascii ']'],
      (b == Text.ascii ';') = false ∧ isSeparator b = false ∧ (b == Text.ascii '"') = false ∧
        Text.isIdentifierStart b = false := by decide
  have hmem : b ∈ [Text.ascii '(', Text.ascii ')', Text.ascii '[', Text.ascii ']'] := by
    by_contra hnone
    rw [bracketClass?_eq_none_iff.mpr hnone] at h
    cases h
  obtain ⟨hcomment, hseparator, hquote, hstart⟩ := hbrackets b hmem
  have hfront : front? b rest = some (some cls, 1) := by
    simp [front?, hcomment, hseparator, hquote, hstart, h]
  rw [scanFrom, hfront]
  cases hrest : scanFrom (nextColumn column b) 0 rest <;>
    simp [hrest, bind, Except.bind, pure, Except.pure, Except.map]

/-- A separator is skipped. -/
theorem scanFrom_separator {b : UInt8} (h : isSeparator b = true) (rest : Text) (column : Nat) :
    scanFrom column 0 (b :: rest) = scanFrom (nextColumn column b) 0 rest := by
  have hseparators : ∀ b, isSeparator b = true → (b == Text.ascii ';') = false :=
    fun _ hb => beq_of_class hb (by decide)
  have hfront : ∀ {b}, isSeparator b = true → ∀ rest,
      front? b rest = some (none, (rest.takeWhile isSeparator).length + 1) := by
    intro b hb rest
    simp [front?, hseparators b hb, hb]
  have hskip : scanFrom column 0 (b :: rest) =
      scanFrom (nextColumn column b) (rest.takeWhile isSeparator).length rest := by
    rw [scanFrom, hfront h]
    simp
  rw [hskip]
  cases rest with
  | nil => rfl
  | cons c rest =>
    cases hc : isSeparator c with
    | false => simp [hc]
    | true =>
      rw [List.takeWhile_cons_of_pos hc, List.length_cons, scanFrom, scanFrom, hfront hc]
      simp

end SExpression

end ScriptSimplifier
