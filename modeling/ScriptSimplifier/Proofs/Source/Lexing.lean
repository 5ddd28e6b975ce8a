import ScriptSimplifier.Proofs.SExpression.Scanning
import ScriptSimplifier.Proofs.Source.Grammar
import ScriptSimplifier.Proofs.Text.Codes

/-!
# Symbols of printed text

`Cuts` says that cutting a text into symbols starts with given symbols and goes on behind them.  It
composes (`Cuts.append`), and each kind of printed symbol is cut off before what the printer lets
follow: a name before anything that does not continue it, a number before anything but such a byte
or a point, a quoted text before anything, and a sign before anything that does not make it a longer
one.
-/

namespace ScriptSimplifier

namespace Grammar

/-- Cutting a text in front of another one gives symbols and goes on with the other one. -/
def Cuts (text : Text) (symbols : List Symbol) (rest : Text) : Prop :=
  symbolsFrom 0 (text ++ rest) = (symbolsFrom 0 rest).map (symbols ++ ·)

theorem cuts_nil (rest : Text) : Cuts [] [] rest := by
  simp [Cuts]

theorem Cuts.append {text more rest : Text} {symbols others : List Symbol}
    (h : Cuts text symbols (more ++ rest)) (hmore : Cuts more others rest) :
    Cuts (text ++ more) (symbols ++ others) rest := by
  rw [Cuts, List.append_assoc, h, hmore, Option.map_map]
  congr 1
  funext after
  simp

theorem symbolsFrom_skip (skip : Nat) (t : Text) :
    symbolsFrom skip t = symbolsFrom 0 (t.drop skip) := by
  induction t generalizing skip with
  | nil => simp [symbolsFrom]
  | cons b t ih =>
    cases skip with
    | zero => rfl
    | succ skip => rw [symbolsFrom, List.drop_succ_cons, ih]

/-- A symbol at the front. -/
theorem cuts_symbol {b : UInt8} {more rest : Text} {s : Symbol}
    (hseparator : SExpression.isSeparator b = false)
    (hfront : front? b (more ++ rest) = some (s, (b :: more).length)) :
    Cuts (b :: more) [s] rest := by
  have hskip : symbolsFrom more.length (more ++ rest) = symbolsFrom 0 rest := by
    rw [symbolsFrom_skip, List.drop_left]
  rw [Cuts, List.cons_append, symbolsFrom, hseparator, hfront]
  simpa using congrArg (Option.map (s :: ·)) hskip

/-- A blank is no symbol. -/
theorem cuts_blank (rest : Text) : Cuts (Text.ofString " ") [] rest := by
  have hblank : Text.ofString " " = [Text.ascii ' '] := by decide
  have hseparator : SExpression.isSeparator (Text.ascii ' ') = true := by decide
  simp [Cuts, hblank, symbolsFrom, hseparator]

/-! ## Names, quoted texts and numbers -/

theorem stops_of_ends {rest : Text} (h : Numeral.Ends rest) :
    Text.Stops Text.isIdentifierPart rest :=
  fun b hb => (h b hb).1

set_option maxRecDepth 2000 in
theorem cuts_word {name rest : Text} (h : SExpression.isPlainName name = true)
    (hrest : Text.Stops Text.isIdentifierPart rest) : Cuts name [.word name] rest := by
  have hfront : ∀ b, Text.isIdentifierStart b = true → SExpression.isSeparator b = false :=
    fun _ hb => SExpression.isSeparator_of_class hb (by decide)
  rw [SExpression.isPlainName, Bool.and_eq_true] at h
  obtain ⟨hstart, hparts⟩ := h
  cases name with
  | nil => simp at hstart
  | cons b more =>
    simp only [List.head?_cons, Option.any_some] at hstart
    obtain ⟨-, hmore⟩ := List.forall_mem_cons.mp (List.all_eq_true.mp hparts)
    have hname := Text.takeWhile_of_stops hmore hrest
    exact cuts_symbol (hfront b hstart) (by simp [front?, hstart, hname])

theorem cuts_quote (t rest : Text) : Cuts t.quote [.string t] rest := by
  have hstart : Text.isIdentifierStart (Text.ascii '"') = false := by decide
  have hlength := SExpression.stringLength?_writeGlyphs t.glyphs rest
  have hcontent := unquote?_quote t
  rw [Text.quote] at hcontent ⊢
  generalize t.glyphs.flatMap Quoted.writeGlyph = body at hlength hcontent ⊢
  -- what is cut off is the content with the closing quote
  have htake : (body ++ Text.ascii '"' :: rest).take (body.length + 1) =
      body ++ [Text.ascii '"'] := by
    rw [List.append_cons, List.take_left' (by simp)]
  refine cuts_symbol (by decide) ?_
  rw [front?, hstart, List.append_assoc, List.singleton_append, hlength]
  simp [htake, hcontent]

/-- A number that needs no sign starts with a digit or a point. -/
theorem numberText_front (code : Magnitude) : ∃ b more,
    Label.numberText (.finite false code) = b :: more ∧
      (Text.isDigit b = true ∨ b = Text.ascii '.') := by
  obtain ⟨body, d, htext, ⟨n, hscan, rfl⟩, -⟩ := numberText_spec false code
  have hnumeral := hscan [] (by simp [Numeral.Ends])
  have hempty : Numeral.scan? [] = none := by decide
  cases body with
  | nil => simp [hempty] at hnumeral
  | cons b more =>
    rw [List.append_nil] at hnumeral
    exact ⟨b, more, htext, Numeral.scan?_front hnumeral⟩

set_option maxRecDepth 2000 in
theorem cuts_number {code : Magnitude} {rest : Text} (hrest : Numeral.Ends rest) :
    Cuts (Label.numberText (.finite false code)) [.number (.finite false code)] rest := by
  obtain ⟨body, d, htext, ⟨n, hscan, rfl⟩, hdouble⟩ := numberText_spec false code
  obtain ⟨b, more, hbody, hb⟩ := numberText_front code
  obtain rfl : body = b :: more := htext.symm.trans hbody
  have hfront := SExpression.startsNumber_iff.mpr hb
  have hseparator := SExpression.isSeparator_of_class hfront (by decide)
  have hstart := SExpression.isIdentifierStart_of_startsNumber hfront
  have hquote : (b == Text.ascii '"') = false := SExpression.beq_of_class hfront (by decide)
  have hnumeral := hscan rest hrest
  rw [List.cons_append] at hnumeral
  have hends : rest.head?.any Text.isIdentifierPart = false := by
    cases rest with
    | nil => rfl
    | cons c rest => exact (hrest c rfl).1
  rw [hbody]
  refine cuts_symbol hseparator ?_
  simp [front?, hstart, hquote, hnumeral, hends, hdouble]
  omega

/-! ## Signs -/

/-- The bytes that make a sign a longer one. -/
def continuations (s : Text) : List UInt8 :=
  (signs.filter s.isPrefixOf).filterMap (·[s.length]?)

/-- Before a byte that does not continue a sign, the signs at the front are those of the sign. -/
theorem isPrefixOf_sign {s rest : Text} (hrest : ∀ b ∈ rest.head?, b ∉ continuations s) {op : Text}
    (hop : op ∈ signs) : op.isPrefixOf (s ++ rest) = op.isPrefixOf s := by
  rw [Bool.eq_iff_iff, List.isPrefixOf_iff_prefix, List.isPrefixOf_iff_prefix]
  refine ⟨fun hprefix => ?_, fun hprefix => hprefix.trans (List.prefix_append s rest)⟩
  by_cases hlength : op.length ≤ s.length
  · exact List.prefix_of_prefix_length_le hprefix (List.prefix_append s rest) hlength
  · -- a longer sign goes on with the first byte of the rest
    have hshort : s <+: op :=
      List.prefix_of_prefix_length_le (List.prefix_append s rest) hprefix (by omega)
    have hbyte : op[s.length]? = rest.head? := by
      obtain ⟨more, hmore⟩ := hprefix
      have hget : (op ++ more)[s.length]? = op[s.length]? :=
        List.getElem?_append_left (by omega)
      rw [← hget, hmore, List.getElem?_append_right (Nat.le_refl _), Nat.sub_self,
        List.head?_eq_getElem?]
    obtain ⟨b, hb⟩ : ∃ b, op[s.length]? = some b :=
      ⟨_, List.getElem?_eq_getElem (by omega)⟩
    refine absurd ?_ (hrest b (hbyte ▸ hb))
    exact List.mem_filterMap.mpr
      ⟨op, List.mem_filter.mpr ⟨hop, List.isPrefixOf_iff_prefix.mpr hshort⟩, hb⟩

/-- A sign starts as no other symbol does, apart from those with a point, and is found again. -/
def isPlainSign : Text → Bool
  | [] => false
  | b :: more => !SExpression.isSeparator b && !Text.isIdentifierStart b && b != Text.ascii '"' &&
      !Text.isDigit b && b != Text.ascii '.' &&
      signs.find? (·.isPrefixOf (b :: more)) == some (b :: more)

/-- A sign before a byte that does not continue it. -/
theorem cuts_sign {s rest : Text} (hs : isPlainSign s = true)
    (hrest : ∀ b ∈ rest.head?, b ∉ continuations s) : Cuts s [.sign s] rest := by
  cases s with
  | nil => simp [isPlainSign] at hs
  | cons b more =>
    simp only [isPlainSign, Bool.and_eq_true, Bool.not_eq_true', bne_iff_ne, beq_iff_eq, ne_eq] at hs
    obtain ⟨⟨⟨⟨⟨hseparator, hstart⟩, hquote⟩, hdigit⟩, hpoint⟩, hfind⟩ := hs
    have hnumber := SExpression.scan?_eq_none hdigit hpoint (more ++ rest)
    have hfind' : signs.find? (·.isPrefixOf (b :: (more ++ rest))) = some (b :: more) := by
      have hsame : ∀ op ∈ signs, op.isPrefixOf (b :: (more ++ rest)) = op.isPrefixOf (b :: more) :=
        fun op hop => isPrefixOf_sign hrest hop
      rw [← List.head?_filter, List.filter_congr hsame, List.head?_filter, hfind]
    refine cuts_symbol hseparator ?_
    simp [front?, hstart, hquote, hnumber, hfind']

set_option maxRecDepth 2000 in
/-- The point behind an object, before the name of its property. -/
theorem cuts_point {rest : Text} (hstart : rest.head?.any Text.isIdentifierStart = true) :
    Cuts (Text.ofString ".") [sign "."] rest := by
  have hpoint : Text.ofString "." = [Text.ascii '.'] := by decide
  cases rest with
  | nil => simp at hstart
  | cons c rest =>
    have hname : Text.isIdentifierStart c = true := by simpa using hstart
    have hdigit := SExpression.isDigit_of_isIdentifierStart hname
    have hcontinues : c ∉ continuations (Text.ofString ".") := by
      have hnone : ∀ d ∈ continuations (Text.ofString "."), Text.isIdentifierStart d = false := by
        decide
      exact fun hc => SExpression.ne_of_class hname (hnone c hc) rfl
    have hnumber : Numeral.scan? (Text.ascii '.' :: c :: rest) = none := by
      have hnone : Text.isDigit (Text.ascii '.') = false := by decide
      simp [Numeral.scan?, Numeral.splitDigits, hdigit, hnone]
    have hfind : signs.find? (·.isPrefixOf (Text.ascii '.' :: c :: rest)) =
        some [Text.ascii '.'] := by
      have hsame : ∀ op ∈ signs, op.isPrefixOf (Text.ascii '.' :: c :: rest) =
          op.isPrefixOf [Text.ascii '.'] := fun op hop =>
        isPrefixOf_sign (s := Text.ofString ".") (by simpa using hcontinues) hop
      rw [← List.head?_filter, List.filter_congr hsame, List.head?_filter]
      decide
    rw [hpoint]
    refine cuts_symbol (by decide) ?_
    have hnotStart : Text.isIdentifierStart (Text.ascii '.') = false := by decide
    have hnotQuote : (Text.ascii '.' == Text.ascii '"') = false := by decide
    simp [front?, hnotStart, hnotQuote, hnumber, hfind, sign, hpoint]

end Grammar

end ScriptSimplifier
