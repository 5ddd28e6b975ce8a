import Mathlib.Data.List.TakeWhile
import ScriptSimplifier.Proofs.Numeric.Grammar
import ScriptSimplifier.Proofs.Numeric.Texts
import ScriptSimplifier.Proofs.Text.Decoding

/-!
# Numeric strings

A string is a number if, without the space around it, it is nothing, a decimal literal or `Infinity`
with a sign or without, or the digits of a radix behind its mark.  A string without the character
U+0085 is read as a number just in case it is of this form (`string_numeric_literals`).  This
character is no space of the language, but it is stripped like those.
-/

namespace ScriptSimplifier

/-! ## Trimming -/

section Trimming

variable {p : Char → Bool}

/-- Glyphs of a class are characters. -/
theorem exists_chars {glyphs : List Glyph} (h : ∀ g ∈ glyphs, g.isOf p = true) :
    ∃ cs : List Char, glyphs = cs.map .char ∧ ∀ c ∈ cs, p c = true := by
  induction glyphs with
  | nil => exact ⟨[], rfl, by simp⟩
  | cons g glyphs ih =>
    obtain ⟨hg, hrest⟩ := List.forall_mem_cons.mp h
    obtain ⟨cs, rfl, hcs⟩ := ih hrest
    cases g with
    | stray b => cases hg
    | char c => exact ⟨c :: cs, rfl, List.forall_mem_cons.mpr ⟨hg, hcs⟩⟩

theorem ofGlyphs_chars (cs : List Char) : Text.ofGlyphs (cs.map .char) = Text.ofChars cs := by
  rw [Text.ofGlyphs, List.flatMap_map]
  rfl

/-- What is stripped are characters of the class on both sides. -/
theorem trimBy_spec (p : Char → Bool) (t : Text) : ∃ front back : List Char,
    (∀ c ∈ front, p c = true) ∧ (∀ c ∈ back, p c = true) ∧
    t = Text.ofChars front ++ t.trimBy p ++ Text.ofChars back := by
  have hsplit : ∀ glyphs : List Glyph, ∃ cs : List Char, (∀ c ∈ cs, p c = true) ∧
      glyphs = cs.map .char ++ glyphs.dropWhile (Glyph.isOf p) := by
    intro glyphs
    have htaken : ∀ g ∈ glyphs.takeWhile (Glyph.isOf p), g.isOf p = true :=
      List.all_eq_true.mp List.all_takeWhile
    obtain ⟨cs, hcs, hall⟩ := exists_chars htaken
    exact ⟨cs, hall, by rw [← hcs, List.takeWhile_append_dropWhile]⟩
  obtain ⟨front, hfront, hglyphs⟩ := hsplit t.glyphs
  obtain ⟨back, hback, hinner⟩ := hsplit (t.glyphs.dropWhile (Glyph.isOf p)).reverse
  refine ⟨front, back.reverse, hfront, fun c hc => hback c (List.mem_reverse.mp hc), ?_⟩
  -- the other side was cut in the reversed glyphs
  have hinner' := congrArg List.reverse hinner
  rw [List.reverse_reverse, List.reverse_append, ← List.map_reverse] at hinner'
  rw [hinner'] at hglyphs
  conv_lhs => rw [← ofGlyphs_glyphs t, hglyphs]
  rw [Text.trimBy, ← ofGlyphs_chars, ← ofGlyphs_chars, Text.ofGlyphs, Text.ofGlyphs,
    List.flatMap_append, List.flatMap_append, List.append_assoc]
  rfl

/-- What is dropped is the front, or everything if nothing else is there. -/
theorem dropWhile_front {front middle back : List Char} (hfront : ∀ c ∈ front, p c = true)
    (hmiddle : ∀ c ∈ middle, p c = false) (hback : ∀ c ∈ back, p c = true) :
    (front ++ middle ++ back).dropWhile p = if middle = [] then [] else middle ++ back := by
  rw [List.append_assoc, List.dropWhile_append_of_pos hfront]
  cases middle with
  | nil =>
    rw [List.nil_append, if_pos rfl]
    exact List.dropWhile_eq_nil_iff.mpr hback
  | cons c middle =>
    rw [List.cons_append, List.dropWhile_cons_of_neg (by simp [hmiddle c])]
    rfl

/-- Characters that are not of the class stay if they are all in one place. -/
theorem trimBy_ofChars {front cs back : List Char} (hfront : ∀ c ∈ front, p c = true)
    (hcs : ∀ c ∈ cs, p c = false) (hback : ∀ c ∈ back, p c = true) :
    (Text.ofChars (front ++ cs ++ back)).trimBy p = Text.ofChars cs := by
  have hmap : ∀ l : List Char, (l.map Glyph.char).dropWhile (Glyph.isOf p) =
      (l.dropWhile p).map Glyph.char := fun l => List.dropWhile_map ..
  have hback' : ∀ c ∈ back.reverse, p c = true := fun c hc => hback c (List.mem_reverse.mp hc)
  have hcs' : ∀ c ∈ cs.reverse, p c = false := fun c hc => hcs c (List.mem_reverse.mp hc)
  have hnone : ∀ c ∈ ([] : List Char), p c = true := by simp
  have hinner := dropWhile_front hback' hcs' hnone
  rw [List.append_nil, List.append_nil, ← List.reverse_append] at hinner
  simp only [Text.trimBy]
  rw [glyphs_ofChars, hmap, dropWhile_front hfront hcs hback, ← List.map_reverse, hmap,
    ← List.map_reverse, ofGlyphs_chars]
  by_cases hnil : cs = []
  · simp [hnil]
  · rw [if_neg hnil, hinner, if_neg (by simpa using hnil), List.reverse_reverse]

end Trimming

namespace NumericString

/-! ## Space -/

/-- The space separators of Unicode. -/
def spaceSeparators : List ℕ :=
  [0x20, 0xA0, 0x1680, 0x2000, 0x2001, 0x2002, 0x2003, 0x2004, 0x2005, 0x2006, 0x2007, 0x2008,
   0x2009, 0x200A, 0x202F, 0x205F, 0x3000]

/-- White space of the script language: tabs, the form feed, the byte order mark and the space
separators. -/
def whiteSpace : List ℕ := [0x9, 0xB, 0xC, 0xFEFF] ++ spaceSeparators

/-- Line terminators of the script language. -/
def lineTerminators : List ℕ := [0xA, 0xD, 0x2028, 0x2029]

/-- A character that may stand around a numeric literal. -/
def IsScriptSpace (c : Char) : Prop := c.toNat ∈ whiteSpace ++ lineTerminators

/-- The control character U+0085, which ends a line in other places than scripts. -/
def nextLine : Char := Char.ofNat 0x85

/-- The characters that are stripped. -/
theorem isSpace_iff {c : Char} : isSpace c = true ↔ IsScriptSpace c ∨ c = nextLine := by
  have hnext : c = nextLine ↔ c.toNat = 0x85 := by
    rw [← Char.toNat_inj]
    rfl
  simp only [hnext, isSpace, isBlank, IsScriptSpace, whiteSpace, lineTerminators, spaceSeparators,
    Bool.or_eq_true, Bool.and_eq_true, decide_eq_true_eq, beq_iff_eq, List.cons_append,
    List.nil_append, List.mem_cons, List.not_mem_nil, or_false]
  omega

/-! ## Literals -/

/-- The marks of the radices. -/
def radixMarks : List (Text × ℕ) :=
  [(Text.ofString "0x", 16), (Text.ofString "0X", 16), (Text.ofString "0o", 8),
   (Text.ofString "0O", 8), (Text.ofString "0b", 2), (Text.ofString "0B", 2)]

/-- What may stand for a number between space. -/
inductive BareLiteral : Text → Prop where
  | nothing : BareLiteral []
  | decimal {sign t : Text} (signed : sign ∈ signs)
    (unsigned : t = Text.ofString "Infinity" ∨ DecimalLiteral t) : BareLiteral (sign ++ t)
  | radix {mark digits : Text} {radix : ℕ} (marked : (mark, radix) ∈ radixMarks)
    (some : Digits radix digits) : BareLiteral (mark ++ digits)

/-- A numeric literal with space around it. -/
def StringLiteral (space : Char → Prop) (t : Text) : Prop :=
  ∃ front body back, t = Text.ofChars front ++ body ++ Text.ofChars back ∧
    (∀ c ∈ front, space c) ∧ BareLiteral body ∧ ∀ c ∈ back, space c

/-! ## Bytes of literals -/

/-- A byte of a decimal literal. -/
def isDecimalByte (b : UInt8) : Bool := Text.isDigit b || (Text.ofString ".eE+-").contains b

theorem forall_digits {t : Text} (h : ∀ b ∈ t, Text.isDigit b = true) :
    ∀ b ∈ t, isDecimalByte b = true := by
  intro b hb
  rw [isDecimalByte, h b hb, Bool.true_or]

theorem ExponentPart.bytes {t : Text} (h : ExponentPart t) : ∀ b ∈ t, isDecimalByte b = true := by
  cases h with
  | missing => simp
  | @present mark sign digits hmark hsign hdigits =>
    have hfront : ∀ mark ∈ [Text.ofString "e", Text.ofString "E"], ∀ sign ∈ signs,
        ∀ b ∈ mark ++ sign, isDecimalByte b = true := by decide +kernel
    exact List.forall_mem_append.mpr
      ⟨hfront mark hmark sign hsign, forall_digits (digits_iff.mp hdigits).2⟩

theorem DecimalLiteral.bytes {t : Text} (h : DecimalLiteral t) :
    ∀ b ∈ t, isDecimalByte b = true := by
  have hdot : ∀ b ∈ Text.ofString ".", isDecimalByte b = true := by decide +kernel
  cases h with
  | whole hdigits hpart =>
    exact List.forall_mem_append.mpr ⟨forall_digits (digits_iff.mp hdigits).2, hpart.bytes⟩
  | pointed hdigits hmore hpart =>
    simp only [List.forall_mem_append]
    exact ⟨⟨⟨forall_digits (digits_iff.mp hdigits).2, hdot⟩,
      forall_digits (isDigit_of_digits hmore)⟩, hpart.bytes⟩
  | fraction hdigits hpart =>
    simp only [List.forall_mem_append]
    exact ⟨⟨hdot, forall_digits (digits_iff.mp hdigits).2⟩, hpart.bytes⟩

/-- An unsigned literal starts with a digit, a point or a letter, so with no sign. -/
theorem unsigned_front {t : Text} (h : t = Text.ofString "Infinity" ∨ DecimalLiteral t) :
    ∃ b more, t = b :: more ∧ b ≠ Text.ascii '+' ∧ b ≠ Text.ascii '-' := by
  rcases h with rfl | h
  · exact ⟨_, _, rfl, by decide⟩
  · obtain ⟨n, hn⟩ := Option.isSome_iff_exists.mp (Numeral.read?_isSome_iff.mpr h)
    obtain ⟨b, more, rfl, hfront⟩ := read?_front hn
    refine ⟨b, more, rfl, ?_, ?_⟩
    all_goals
      rintro rfl
      exact absurd hfront (by decide)

/-! ## Reading -/

theorem ofUnits_ne_nan (negative : Bool) (num den : ℕ) :
    Double.ofUnits negative num den ≠ .nan := by
  rw [Double.ofUnits]
  split <;> exact Double.noConfusion

theorem toDouble_ne_nan (negative : Bool) (d : Decimal) : d.toDouble negative ≠ .nan := by
  rw [Decimal.toDouble]
  split
  · exact Double.noConfusion
  · split
    · exact Double.noConfusion
    · split
      · exact Double.noConfusion
      · exact ofUnits_ne_nan _ _ _

/-- An unsigned text is a number if it is a literal. -/
theorem unsigned_eq_nan_iff {t : Text} :
    unsigned t = .nan ↔ ¬ (t = Text.ofString "Infinity" ∨ DecimalLiteral t) := by
  rw [unsigned, ← Numeral.read?_isSome_iff]
  by_cases hinfinity : t = Text.ofString "Infinity"
  · simp [hinfinity]
  · rw [if_neg hinfinity]
    cases Numeral.read? t with
    | none => simp [hinfinity]
    | some n => simp [toDouble_ne_nan]

/-- The marked radices. -/
theorem radix_of_mark {mark : Text} {radix : ℕ} (h : (mark, radix) ∈ radixMarks) :
    radix = 16 ∨ radix = 8 ∨ radix = 2 := by
  have hall : ∀ entry ∈ radixMarks, entry.2 = 16 ∨ entry.2 = 8 ∨ entry.2 = 2 := by decide
  exact hall _ h

/-- The digits that a text spells. -/
theorem exists_digits {radix : ℕ} {t : Text} (h : ∀ b ∈ t, ∃ d, Spells radix b d) :
    ∃ digits, List.Forall₂ (Spells radix) t digits := by
  induction t with
  | nil => exact ⟨[], .nil⟩
  | cons b t ih =>
    obtain ⟨⟨d, hd⟩, hrest⟩ := List.forall_mem_cons.mp h
    obtain ⟨digits, hdigits⟩ := ih hrest
    exact ⟨d :: digits, .cons hd hdigits⟩

/-- One byte that is no digit spoils the number. -/
theorem ofDigits_eq_nan {radix : ℕ} {digits : Text} (h : ∃ b ∈ digits, digit? radix b = none) :
    ofDigits radix digits = .nan := by
  obtain ⟨b, hb, hnone⟩ := h
  obtain ⟨front, back, rfl⟩ := List.append_of_mem hb
  simp [ofDigits, List.foldlM_append, hnone]

/-- A text that follows the mark of a radix is a number if it is made of digits. -/
theorem ofDigits_eq_nan_iff {radix : ℕ} (hradix : radix = 16 ∨ radix = 8 ∨ radix = 2)
    {digits : Text} (hne : digits ≠ []) :
    ofDigits radix digits = .nan ↔ ¬ Digits radix digits := by
  obtain ⟨k, -, hk, rfl⟩ := radix_eq_two_pow hradix
  have hle : 2 ^ k ≤ 2 ^ 4 := Nat.pow_le_pow_right (by decide) hk
  constructor
  · intro hnan hdigits
    obtain ⟨values, hvalues⟩ := exists_digits hdigits.spelled
    rw [ofDigits_eq_ofNat hk hvalues, Double.ofNat_eq_ofUnits] at hnan
    exact ofUnits_ne_nan _ _ _ hnan
  · intro hdigits
    refine ofDigits_eq_nan ?_
    by_contra hall
    refine hdigits ⟨hne, fun b hb => ?_⟩
    obtain ⟨d, hd⟩ := Option.ne_none_iff_exists'.mp fun hnone => hall ⟨b, hb, hnone⟩
    exact ⟨d, (digit?_eq_some_iff hle).mp hd⟩

/-- The marks are a zero and a letter that is in no decimal literal. -/
theorem radixMarks_spec {mark : Text} {radix : ℕ} (h : (mark, radix) ∈ radixMarks) :
    ∃ letter, mark = [Text.ascii '0', letter] ∧ radix? letter = some radix ∧
      isDecimalByte letter = false := by
  simp only [radixMarks, List.mem_cons, List.not_mem_nil, or_false, Prod.mk.injEq] at h
  rcases h with ⟨rfl, rfl⟩ | ⟨rfl, rfl⟩ | ⟨rfl, rfl⟩ | ⟨rfl, rfl⟩ | ⟨rfl, rfl⟩ | ⟨rfl, rfl⟩
  all_goals exact ⟨_, rfl, by decide⟩

theorem radixLiteral?_eq_some_iff {t digits : Text} {radix : ℕ} :
    radixLiteral? t = some (radix, digits) ↔
      digits ≠ [] ∧ ∃ mark, (mark, radix) ∈ radixMarks ∧ t = mark ++ digits := by
  constructor
  · intro h
    have hletters : ∀ letter, ∀ r ∈ radix? letter, ([Text.ascii '0', letter], r) ∈ radixMarks :=
      forall_byte (by decide +kernel)
    match t, h with
    | zero :: letter :: first :: rest, h =>
      simp only [radixLiteral?] at h
      split at h
      · rename_i hzero
        obtain ⟨r, hr, heq⟩ := Option.map_eq_some_iff.mp h
        obtain ⟨rfl, rfl⟩ := Prod.mk.inj heq
        refine ⟨List.cons_ne_nil _ _, [zero, letter], ?_, rfl⟩
        rw [eq_of_beq hzero]
        exact hletters letter r hr
      · cases h
  · rintro ⟨hne, mark, hmark, rfl⟩
    obtain ⟨first, rest, rfl⟩ := List.exists_cons_of_ne_nil hne
    obtain ⟨letter, rfl, hletter, -⟩ := radixMarks_spec hmark
    simp [radixLiteral?, hletter]

/-- Behind the mark of a radix only its digits make a literal. -/
theorem bareLiteral_mark {mark digits : Text} {radix : ℕ} (hmark : (mark, radix) ∈ radixMarks)
    (hne : digits ≠ []) : BareLiteral (mark ++ digits) ↔ Digits radix digits := by
  constructor
  · intro h
    have hread := radixLiteral?_eq_some_iff.mpr ⟨hne, mark, hmark, rfl⟩
    obtain ⟨letter, rfl, -, hletter⟩ := radixMarks_spec hmark
    generalize hbody : [Text.ascii '0', letter] ++ digits = body at h hread
    cases h with
    | nothing => cases hbody
    | @decimal sign t hsign hunsigned =>
      -- neither `Infinity` nor a decimal literal has the mark's zero and letter
      exfalso
      rcases hunsigned with rfl | hdecimal
      · have hfront : ∀ sign ∈ signs,
            (sign ++ Text.ofString "Infinity").head? ≠ some (Text.ascii '0') := by decide
        exact hfront sign hsign (by rw [← hbody]; rfl)
      · have hsigns : ∀ sign ∈ signs, ∀ b ∈ sign, isDecimalByte b = true := by decide +kernel
        have hall := List.forall_mem_append.mpr ⟨hsigns sign hsign, hdecimal.bytes⟩
        rw [← hbody] at hall
        rw [hall letter (by simp)] at hletter
        cases hletter
    | radix hmark' hdigits =>
      -- a text is read with one mark only
      have hread' := radixLiteral?_eq_some_iff.mpr ⟨hdigits.some, _, hmark', rfl⟩
      obtain ⟨rfl, rfl⟩ := Prod.mk.inj (Option.some.inj (hread'.symm.trans hread))
      exact hdigits
  · exact .radix hmark

/-- Without such a mark only a decimal literal with a sign or without is left. -/
theorem bareLiteral_unmarked {t : Text} (hne : t ≠ []) (hradix : radixLiteral? t = none) :
    BareLiteral t ↔
      ((splitSign t).2 = Text.ofString "Infinity" ∨ DecimalLiteral (splitSign t).2) := by
  constructor
  · intro h
    cases h with
    | nothing => exact absurd rfl hne
    | @decimal sign t hsign hunsigned =>
      rw [splitSign_append hsign]
      · exact hunsigned
      · obtain ⟨b, more, rfl, hfront⟩ := unsigned_front hunsigned
        intro b' hb'
        obtain rfl := Option.some.inj hb'
        exact hfront
    | radix hmark hdigits =>
      have hread := radixLiteral?_eq_some_iff.mpr ⟨hdigits.some, _, hmark, rfl⟩
      rw [hread] at hradix
      cases hradix
  · intro h
    obtain ⟨sign, hsign, ht⟩ := splitSign_spec t
    rw [ht]
    exact .decimal hsign h

/-- A text is a number if it is a literal without the characters that are stripped. -/
theorem toDouble_eq_nan_iff (t : Text) :
    toDouble t = .nan ↔ ¬ BareLiteral (t.trimBy isSpace) := by
  rw [toDouble]
  generalize t.trimBy isSpace = body
  by_cases hnil : body = []
  · rw [hnil]
    exact ⟨fun h => absurd h (by decide), fun h => absurd .nothing h⟩
  · have hempty : body.isEmpty = false := by simpa using hnil
    simp only [hempty, Bool.false_eq_true, if_false]
    cases hradix : radixLiteral? body with
    | some pair =>
      obtain ⟨radix, digits⟩ := pair
      obtain ⟨hne, mark, hmark, rfl⟩ := radixLiteral?_eq_some_iff.mp hradix
      simp only
      rw [ofDigits_eq_nan_iff (radix_of_mark hmark) hne, bareLiteral_mark hmark hne]
    | none =>
      have hneg : ∀ x : Double, x.neg = .nan ↔ x = .nan := by
        intro x
        cases x <;> simp [Double.neg]
      have hsign : (if (splitSign body).1 then (unsigned (splitSign body).2).neg
          else unsigned (splitSign body).2) = .nan ↔ unsigned (splitSign body).2 = .nan := by
        split
        · exact hneg _
        · exact Iff.rfl
      simp only
      rw [hsign, unsigned_eq_nan_iff, bareLiteral_unmarked hnil hradix]

/-! ## Literals between space -/

/-- A byte of a literal: an ASCII character that is shown. -/
def isGraphic (b : UInt8) : Bool := 0x21 ≤ b && b ≤ 0x7E

theorem isGraphic_of_spells {radix : ℕ} {b : UInt8} {d : ℕ} (hradix : radix ≤ 16)
    (h : Spells radix b d) : isGraphic b = true := by
  have hall : ∀ d : Fin 16, isGraphic (Text.ascii d.val.digitChar) = true ∧
      isGraphic (Text.ascii d.val.digitChar.toUpper) = true := by decide
  obtain ⟨hlower, hupper⟩ := hall ⟨d, Nat.lt_of_lt_of_le h.lt hradix⟩
  rcases h.byte with rfl | rfl
  · exact hlower
  · exact hupper

theorem BareLiteral.bytes {t : Text} (h : BareLiteral t) : ∀ b ∈ t, isGraphic b = true := by
  cases h with
  | nothing => simp
  | @decimal sign t hsign hunsigned =>
    have hsigns : ∀ sign ∈ signs, ∀ b ∈ sign, isGraphic b = true := by decide +kernel
    refine List.forall_mem_append.mpr ⟨hsigns sign hsign, ?_⟩
    rcases hunsigned with rfl | hdecimal
    · decide +kernel
    · have hbytes : ∀ b, isDecimalByte b = true → isGraphic b = true :=
        forall_byte (by decide +kernel)
      exact fun b hb => hbytes b (hdecimal.bytes b hb)
  | @radix mark digits radix hmark hdigits =>
    have hmarks : ∀ entry ∈ radixMarks, ∀ b ∈ entry.1, isGraphic b = true := by decide +kernel
    have hle : radix ≤ 16 := by
      rcases radix_of_mark hmark with rfl | rfl | rfl <;> decide
    refine List.forall_mem_append.mpr ⟨hmarks _ hmark, fun b hb => ?_⟩
    obtain ⟨d, hd⟩ := hdigits.spelled b hb
    exact isGraphic_of_spells hle hd

/-- A literal is made of characters that are no space. -/
theorem BareLiteral.chars {t : Text} (h : BareLiteral t) : ∃ cs : List Char,
    t = Text.ofChars cs ∧ ∀ c ∈ cs, 0x21 ≤ c.toNat ∧ c.toNat ≤ 0x7E := by
  have hbytes : ∀ b ∈ t, 0x21 ≤ b.toNat ∧ b.toNat ≤ 0x7E := by
    intro b hb
    have hgraphic := h.bytes b hb
    rw [isGraphic, Bool.and_eq_true, decide_eq_true_iff, decide_eq_true_iff,
      UInt8.le_iff_toNat_le, UInt8.le_iff_toNat_le] at hgraphic
    exact hgraphic
  have hascii : ∀ b ∈ t, b < 0x80 := fun b hb =>
    UInt8.lt_iff_toNat_lt.mpr (Nat.lt_of_le_of_lt (hbytes b hb).2 (by decide))
  refine ⟨t.map fun b => Char.ofNat b.toNat, ?_, ?_⟩
  · rw [← ofGlyphs_chars, List.map_map]
    conv_lhs => rw [← ofGlyphs_glyphs t, glyphs_ascii hascii]
    rfl
  · intro c hc
    obtain ⟨b, hb, rfl⟩ := List.mem_map.mp hc
    rw [toNat_ofNat (.inl (by have := hbytes b hb; omega))]
    exact hbytes b hb

/-- A literal with space around it, character by character. -/
theorem StringLiteral.chars {space : Char → Prop} {t : Text} (h : StringLiteral space t) :
    ∃ front cs back, t = Text.ofChars (front ++ cs ++ back) ∧ (∀ c ∈ front, space c) ∧
      BareLiteral (Text.ofChars cs) ∧ (∀ c ∈ cs, 0x21 ≤ c.toNat ∧ c.toNat ≤ 0x7E) ∧
      ∀ c ∈ back, space c := by
  obtain ⟨front, body, back, rfl, hfront, hbody, hback⟩ := h
  obtain ⟨cs, rfl, hcs⟩ := hbody.chars
  exact ⟨front, cs, back, by rw [ofChars_append, ofChars_append], hfront, hbody, hcs, hback⟩

/-- What is left of a text without space is a literal if the text is one with space. -/
theorem bareLiteral_trim {t : Text} : BareLiteral (t.trimBy isSpace) ↔
    StringLiteral (fun c => IsScriptSpace c ∨ c = nextLine) t := by
  constructor
  · intro h
    obtain ⟨front, back, hfront, hback, ht⟩ := trimBy_spec isSpace t
    exact ⟨front, _, back, ht, fun c hc => isSpace_iff.mp (hfront c hc), h,
      fun c hc => isSpace_iff.mp (hback c hc)⟩
  · intro h
    obtain ⟨front, cs, back, rfl, hfront, hbody, hcs, hback⟩ := h.chars
    have hgraphic : ∀ c ∈ cs, isSpace c = false := by
      intro c hc
      have := hcs c hc
      simp only [isSpace, isBlank, Bool.or_eq_false_iff, Bool.and_eq_false_iff,
        decide_eq_false_iff_not, beq_eq_false_iff_ne]
      omega
    rwa [trimBy_ofChars (fun c hc => isSpace_iff.mpr (hfront c hc)) hgraphic
      fun c hc => isSpace_iff.mpr (hback c hc)]

/-- No literal of the script language holds the character U+0085. -/
theorem StringLiteral.nextLine_notMem {t : Text} (h : StringLiteral IsScriptSpace t) :
    nextLine ∉ t.chars := by
  have hspace : ¬ IsScriptSpace nextLine := by
    unfold IsScriptSpace
    decide
  obtain ⟨front, cs, back, rfl, hfront, -, hcs, hback⟩ := h.chars
  rw [chars_ofChars, List.mem_append, List.mem_append]
  rintro ((hmem | hmem) | hmem)
  · exact hspace (hfront _ hmem)
  · exact absurd (hcs _ hmem).2 (by decide)
  · exact hspace (hback _ hmem)

/-- A string without the character U+0085 is no number just in case it is no numeric literal with
space around it.  A string with this character is no such literal, and it is a number if it is one
when the character counts as space. -/
theorem string_numeric_literals (t : Text) :
    (nextLine ∉ t.chars → (toDouble t = .nan ↔ ¬ StringLiteral IsScriptSpace t)) ∧
    (nextLine ∈ t.chars → ¬ StringLiteral IsScriptSpace t ∧
      (toDouble t = .nan ↔ ¬ StringLiteral (fun c => IsScriptSpace c ∨ c = nextLine) t)) := by
  have hread : toDouble t = .nan ↔
      ¬ StringLiteral (fun c => IsScriptSpace c ∨ c = nextLine) t := by
    rw [toDouble_eq_nan_iff, bareLiteral_trim]
  refine ⟨fun hnone => ?_, fun hsome => ⟨fun h => h.nextLine_notMem hsome, hread⟩⟩
  -- what is stripped are characters of the string, so none of them is U+0085
  rw [hread, not_iff_not]
  constructor
  · intro h
    obtain ⟨front, cs, back, rfl, hfront, hbody, -, hback⟩ := h.chars
    rw [chars_ofChars, List.mem_append, List.mem_append, not_or, not_or] at hnone
    refine ⟨front, Text.ofChars cs, back, by rw [ofChars_append, ofChars_append],
      fun c hc => (hfront c hc).resolve_right ?_, hbody,
      fun c hc => (hback c hc).resolve_right ?_⟩
    · rintro rfl
      exact hnone.1.1 hc
    · rintro rfl
      exact hnone.2 hc
  · rintro ⟨front, body, back, ht, hfront, hbody, hback⟩
    exact ⟨front, body, back, ht, fun c hc => .inl (hfront c hc), hbody,
      fun c hc => .inl (hback c hc)⟩

/-- A decimal literal may have a sign and a line terminator behind it, the digits of a radix may
have no sign, and U+0085 is stripped from the front. -/
theorem string_numeric_literals_signed :
    nextLine ∉ (Text.ofString " -.5E+3\n").chars ∧
    StringLiteral IsScriptSpace (Text.ofString " -.5E+3\n") ∧
    nextLine ∉ (Text.ofString "-0x1F").chars ∧
    ¬ StringLiteral IsScriptSpace (Text.ofString "-0x1F") ∧
    nextLine ∈ (Text.ofChars [nextLine, '7']).chars ∧
    StringLiteral (fun c => IsScriptSpace c ∨ c = nextLine) (Text.ofChars [nextLine, '7']) := by
  have hspaced : nextLine ∉ (Text.ofString " -.5E+3\n").chars := by decide
  have hsigned : nextLine ∉ (Text.ofString "-0x1F").chars := by decide
  have hnext : nextLine ∈ (Text.ofChars [nextLine, '7']).chars := by decide
  refine ⟨hspaced, ?_, hsigned, ?_, hnext, ?_⟩
  · by_contra hliteral
    have hnan := ((string_numeric_literals _).1 hspaced).mpr hliteral
    exact absurd hnan (by decide +kernel)
  · exact ((string_numeric_literals _).1 hsigned).mp (by decide)
  · by_contra hliteral
    have hnan := ((string_numeric_literals _).2 hnext).2.mpr hliteral
    exact absurd hnan (by decide +kernel)

/-- The string of U+0085 alone is zero, though it is no numeric literal. -/
theorem next_line_read_as_zero :
    (Value.string (Text.ofChars [nextLine])).toNumber = .zero false ∧
    toDouble (Text.ofChars [nextLine]) ≠ .nan ∧
    ¬ StringLiteral IsScriptSpace (Text.ofChars [nextLine]) := by
  refine ⟨by decide, by decide, fun h => h.nextLine_notMem ?_⟩
  rw [chars_ofChars]
  exact List.mem_singleton_self nextLine

end NumericString

end ScriptSimplifier
