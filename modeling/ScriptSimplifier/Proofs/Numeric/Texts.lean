import ScriptSimplifier.Proofs.Numeric.Fewest
import ScriptSimplifier.Proofs.Numeric.Numerals
import ScriptSimplifier.Value.Conversion

/-!
# Numbers as strings

A number is written as the decimal with the fewest digits that stands for it, in the layout of the
language (`Laid`), and the string reads as the number again (`number_text_reads_back`).  Reading
strips white space, looks for a radix, a sign and `Infinity`, and takes the rest as a numeral; the
bytes of a number's text (`isNumeric`) leave all but the sign alone.
-/

namespace ScriptSimplifier

/-! ## Layouts -/

/-- How a number is written that has these digits, with the decimal point behind the first `point`
of them.  An exponent is written for points that are not in (-6, 21], always with its sign. -/
inductive Laid (digits : Text) (point : Int) : Text → Prop
  /-- The point is behind all digits: zeros fill the places before it, and it is left out. -/
  | whole {zeros : Nat} : point = digits.length + zeros → point ≤ 21 →
      Laid digits point (digits ++ List.replicate zeros (Text.ascii '0'))
  /-- The point is between two digits. -/
  | mixed {front back : Text} : digits = front ++ back → front ≠ [] → back ≠ [] →
      point = front.length → point ≤ 21 →
      Laid digits point (front ++ Text.ascii '.' :: back)
  /-- The point is before all digits: zeros fill the places behind it. -/
  | fraction {zeros : Nat} : point = -zeros → -6 < point →
      Laid digits point (Text.ofString "0." ++ List.replicate zeros (Text.ascii '0') ++ digits)
  /-- The point is behind the first digit, and left out if there are no others. -/
  | exponential {first : UInt8} {others : Text} {exponent : Int} : digits = first :: others →
      point ≤ -6 ∨ 21 < point → exponent = point - 1 →
      Laid digits point ((if others = [] then [first] else first :: Text.ascii '.' :: others) ++
        (if exponent < 0 then Text.ofString "e-" else Text.ofString "e+") ++
        Text.ofNat exponent.natAbs)

/-- A decimal is written in the layout of the language. -/
theorem laid_write (d : Decimal) : Laid (Text.ofNat d.digits)
    (d.exponent + decimalLength d.digits) (scriptLayout.write d) := by
  have hlength : decimalLength d.digits = (Text.ofNat d.digits).length := by
    simp [decimalLength, Text.ofNat]
  have hne := ofNat_ne_nil d.digits
  rw [hlength, DecimalLayout.write]
  generalize Text.ofNat d.digits = digits at *
  -- the cases of the layout are about the place of the point only
  generalize hpoint : d.exponent + (digits.length : Int) = point
  have hupTo : scriptLayout.upTo = 21 := rfl
  have habove : scriptLayout.above = -6 := rfl
  simp only [hupTo, habove]
  split
  · exact .whole (by omega) (by omega)
  · split
    · have hfront : (digits.take point.toNat).length = point.toNat := by
        rw [List.length_take]
        omega
      refine .mixed (List.take_append_drop _ _).symm ?_ ?_ (by omega) (by omega)
      · exact List.ne_nil_of_length_pos (by omega)
      · rw [Ne, List.drop_eq_nil_iff]
        omega
    · split
      · exact .fraction (by omega) (by omega)
      · have hpos := List.length_pos_iff.mpr hne
        obtain ⟨first, others, rfl⟩ := List.exists_cons_of_ne_nil hne
        have hlaid : Laid (first :: others) point _ := .exponential rfl (by omega) rfl
        cases others with
        | nil => simpa using hlaid
        | cons second others => simpa using hlaid

/-! ## Bytes -/

/-- The bytes that numbers are made of. -/
def isNumeric (b : UInt8) : Bool :=
  Text.isDigit b ||
    [Text.ascii '.', Text.ascii 'e', Text.ascii '+', Text.ascii '-'].contains b

theorem isNumeric_digit {b : UInt8} (h : Text.isDigit b = true) : isNumeric b = true := by
  rw [isNumeric, h, Bool.true_or]

/-- Whatever the layout, the text of a number is made of its bytes. -/
theorem Laid.isNumeric {digits text : Text} {point : Int} (h : Laid digits point text)
    (hdigits : ∀ b ∈ digits, Text.isDigit b = true) : ∀ b ∈ text, isNumeric b = true := by
  have hzeros : ∀ {zeros : Nat}, ∀ b ∈ List.replicate zeros (Text.ascii '0'),
      ScriptSimplifier.isNumeric b = true := fun b hb => isNumeric_digit (isDigit_zeros hb)
  have hnumeric : ∀ b ∈ digits, ScriptSimplifier.isNumeric b = true :=
    fun b hb => isNumeric_digit (hdigits b hb)
  cases h with
  | whole => exact List.forall_mem_append.mpr ⟨hnumeric, hzeros⟩
  | mixed hsplit =>
    rw [hsplit, List.forall_mem_append] at hnumeric
    exact List.forall_mem_append.mpr
      ⟨hnumeric.1, List.forall_mem_cons.mpr ⟨by decide, hnumeric.2⟩⟩
  | fraction =>
    exact List.forall_mem_append.mpr
      ⟨List.forall_mem_append.mpr ⟨List.all_eq_true.mp (by decide), hzeros⟩, hnumeric⟩
  | exponential hcons =>
    rw [hcons, List.forall_mem_cons] at hnumeric
    refine List.forall_mem_append.mpr ⟨List.forall_mem_append.mpr ⟨?_, ?_⟩,
      fun b hb => isNumeric_digit (isDigit_ofNat hb)⟩
    · split
      · exact List.forall_mem_singleton.mpr hnumeric.1
      · exact List.forall_mem_cons.mpr ⟨hnumeric.1, List.forall_mem_cons.mpr
          ⟨by decide, hnumeric.2⟩⟩
    · exact List.all_eq_true.mp (by split <;> decide)

theorem lead?_ascii {b : UInt8} (h : b < 0x80) (rest : Text) :
    Glyph.lead? b rest = some (Char.ofNat b.toNat, 0) := by
  unfold Glyph.lead?
  rw [if_pos h]

/-- An ASCII byte is a character of its own. -/
theorem glyphs_ascii {t : Text} (h : ∀ b ∈ t, b < 0x80) :
    t.glyphs = t.map fun b => .char (Char.ofNat b.toNat) := by
  rw [Text.glyphs]
  induction t with
  | nil => rfl
  | cons b rest ih =>
    obtain ⟨hb, hrest⟩ := List.forall_mem_cons.mp h
    rw [Glyph.decodeFrom, lead?_ascii hb, List.map_cons]
    exact congrArg _ (ih hrest)

/-- Nothing is stripped from a text without characters of the class. -/
theorem trimBy_eq_self {p : Char → Bool} {t : Text}
    (h : ∀ g ∈ t.glyphs, g.isOf p = false) : t.trimBy p = t := by
  have hkeep : ∀ {glyphs : List Glyph}, (∀ g ∈ glyphs, g.isOf p = false) →
      glyphs.dropWhile (Glyph.isOf p) = glyphs := by
    intro glyphs hglyphs
    cases glyphs with
    | nil => rfl
    | cons g rest => rw [List.dropWhile_cons_of_neg (by simp [hglyphs])]
  simp only [Text.trimBy, hkeep h]
  rw [hkeep (fun g hg => h g (List.mem_reverse.mp hg)), List.reverse_reverse, ofGlyphs_glyphs]

namespace NumericString

/-- The bytes of numbers are ASCII and no white space. -/
theorem isNumeric_spec {b : UInt8} (h : isNumeric b = true) :
    b < 0x80 ∧ isSpace (Char.ofNat b.toNat) = false := by
  obtain ⟨hlow, hhigh⟩ : 43 ≤ b.toNat ∧ b.toNat ≤ 101 := by
    rcases Bool.or_eq_true_iff.mp h with hdigit | hother
    · have hzero : (Text.ascii '0').toNat = 48 := by decide
      have hnine : (Text.ascii '9').toNat = 57 := by decide
      simp only [Text.isDigit, Bool.and_eq_true, decide_eq_true_eq,
        UInt8.le_iff_toNat_le] at hdigit
      omega
    · simp only [List.contains_iff_mem, List.mem_cons, List.not_mem_nil, or_false] at hother
      rcases hother with rfl | rfl | rfl | rfl <;> decide
  have hcode : (Char.ofNat b.toNat).toNat = b.toNat := toNat_ofNat (.inl (by omega))
  refine ⟨UInt8.lt_iff_toNat_lt.mpr (show b.toNat < 128 by omega), ?_⟩
  simp only [isSpace, isBlank, hcode, Bool.or_eq_false_iff, Bool.and_eq_false_iff,
    decide_eq_false_iff_not, beq_eq_false_iff_ne]
  omega

theorem trim_numeric {t : Text} (h : ∀ b ∈ t, isNumeric b = true) : t.trimBy isSpace = t := by
  refine trimBy_eq_self fun g hg => ?_
  rw [glyphs_ascii fun b hb => (isNumeric_spec (h b hb)).1] at hg
  obtain ⟨b, hb, rfl⟩ := List.mem_map.mp hg
  exact (isNumeric_spec (h b hb)).2

/-- A text of such bytes announces no radix. -/
theorem radixLiteral?_numeric {t : Text} (h : ∀ b ∈ t, isNumeric b = true) :
    radixLiteral? t = none := by
  match t, h with
  | [], _ => rfl
  | [_], _ => rfl
  | [_, _], _ => rfl
  | zero :: letter :: first :: rest, h =>
    have hletter : radix? letter = none := by
      have hne : ∀ c, isNumeric c = false → (letter == c) = false := by
        rintro c hc
        refine beq_false_of_ne ?_
        rintro rfl
        rw [h letter (by simp)] at hc
        cases hc
      rw [radix?, hne _ (by decide), hne _ (by decide), hne _ (by decide), hne _ (by decide),
        hne _ (by decide), hne _ (by decide)]
      rfl
    simp [radixLiteral?, hletter]

/-- A numeral starts with a digit or a point. -/
theorem read?_front {body : Text} {n : Numeral} (h : Numeral.read? body = some n) :
    ∃ b more, body = b :: more ∧ (Text.isDigit b = true ∨ b = Text.ascii '.') := by
  cases body with
  | nil =>
    have hempty : Numeral.read? [] = none := by decide
    rw [hempty] at h
    cases h
  | cons b more =>
    rw [Numeral.read?] at h
    split at h
    · rename_i hscan
      exact ⟨b, more, rfl, Numeral.scan?_front hscan⟩
    · cases h

/-- A numeral, with a minus sign or without, reads as the number that it denotes. -/
theorem toDouble_numeral {body : Text} {n : Numeral} (hbytes : ∀ b ∈ body, isNumeric b = true)
    (hread : Numeral.read? body = some n) (negative : Bool) :
    toDouble ((if negative then [Text.ascii '-'] else []) ++ body) =
      if negative then (n.toDecimal.toDouble false).neg else n.toDecimal.toDouble false := by
  obtain ⟨b, more, rfl, hfront⟩ := read?_front hread
  -- a numeral starts with a digit or a point, so it is neither signed nor a word
  have hstart : ∀ c, Text.isDigit c = false → c ≠ Text.ascii '.' → b ≠ c := by
    rintro c hdigit hpoint rfl
    rcases hfront with h | h
    · rw [hdigit] at h
      cases h
    · exact hpoint h
  have hunsigned : unsigned (b :: more) = n.toDecimal.toDouble false := by
    have hinfinity : b :: more ≠ Text.ofString "Infinity" := by
      intro heq
      exact hstart (Text.ascii 'I') (by decide) (by decide) (List.cons.inj heq).1
    rw [unsigned, if_neg hinfinity, hread]
  have hsign : splitSign ((if negative then [Text.ascii '-'] else []) ++ b :: more) =
      (negative, b :: more) := by
    cases negative with
    | true => rfl
    | false =>
      have hminus : (b == Text.ascii '-') = false :=
        beq_false_of_ne (hstart _ (by decide) (by decide))
      have hplus : (b == Text.ascii '+') = false :=
        beq_false_of_ne (hstart _ (by decide) (by decide))
      simp [splitSign, hminus, hplus]
  have hall : ∀ c ∈ (if negative then [Text.ascii '-'] else []) ++ b :: more,
      isNumeric c = true := by
    refine List.forall_mem_append.mpr ⟨?_, hbytes⟩
    exact List.all_eq_true.mp (by cases negative <;> decide)
  have hempty : ((if negative then [Text.ascii '-'] else []) ++ b :: more).isEmpty = false := by
    simp
  simp only [toDouble, trim_numeric hall, hempty, radixLiteral?_numeric hall, hsign, hunsigned,
    Bool.false_eq_true, if_false]

end NumericString

/-! ## Reading back -/

/-- What reads as a finite magnitude other than zero rounds to it. -/
theorem Decimal.rounds_of_toDouble {d : Decimal} {negative : Bool} {code : Magnitude}
    (hcode : 0 < code.val) (h : d.toDouble negative = .finite negative code) :
    d.Rounds code.val := by
  have hzero : Double.zero negative ≠ .finite negative code := by
    intro heq
    rw [← (Double.finite.inj heq).2] at hcode
    exact absurd hcode (by decide)
  rw [toDouble] at h
  split at h
  · exact absurd h hzero
  · split at h
    · cases h
    · split at h
      · exact absurd h hzero
      · rw [Double.ofRatio, Double.ofUnits] at h
        split at h
        · rw [← (Double.finite.inj h).2]
          exact BinaryFormat.rounds_nearestCode fractionBits_pos _ (Nat.pow_pos (by omega))
        · cases h

/-- The text of a decimal is a numeral of the same value. -/
theorem read?_write (d : Decimal) : ∃ n : Numeral,
    Numeral.read? (scriptLayout.write d) = some n ∧ n.toDecimal.value = d.value := by
  have hread : ∀ {text : Text} {d' : Decimal}, Numeral.Reads text d' →
      ∃ n : Numeral, Numeral.read? text = some n ∧ n.toDecimal = d' := by
    rintro text d' ⟨n, hscan, hn⟩
    have hscan' := hscan [] (by simp [Numeral.Ends])
    rw [List.append_nil] at hscan'
    exact ⟨n, by rw [Numeral.read?, hscan'], hn⟩
  rcases Numeral.reads_write d with h | ⟨hexponent, h⟩
  · obtain ⟨n, hn, hvalue⟩ := hread h
    exact ⟨n, hn, by rw [hvalue]⟩
  · obtain ⟨n, hn, hvalue⟩ := hread h
    refine ⟨n, hn, ?_⟩
    obtain ⟨e, he⟩ := Int.eq_ofNat_of_zero_le hexponent
    rw [hvalue, Decimal.value, Decimal.value, he]
    simp

theorem toText_finite {negative : Bool} {code : Magnitude} (hcode : 0 < code.val) :
    (Double.finite negative code).toText = (if negative then [Text.ascii '-'] else []) ++
      scriptLayout.write (Decimal.shortest code) := by
  rw [Double.toText, if_neg hcode.ne']
  cases negative <;> rfl

/-- The text of a finite number other than zero reads as the number. -/
theorem toDouble_toText {negative : Bool} {code : Magnitude} (hcode : 0 < code.val) :
    NumericString.toDouble (Double.finite negative code).toText = .finite negative code := by
  have hbytes := (laid_write (Decimal.shortest code)).isNumeric fun b hb => isDigit_ofNat hb
  obtain ⟨n, hread, hvalue⟩ := read?_write (Decimal.shortest code)
  have hrounds : n.toDecimal.Rounds code.val := by
    rw [Decimal.rounds_iff, hvalue, ← Decimal.rounds_iff]
    exact Decimal.shortest_rounds hcode
  rw [toText_finite hcode, NumericString.toDouble_numeral hbytes hread,
    Decimal.toDouble_of_rounds hcode hrounds]
  cases negative <;> rfl

/-- Every number, written as a string, reads as itself, but for the negative zero, which reads as
zero.

A finite number other than zero is written with the decimal that has the fewest digits of all that
stand for it, in the layout of the language, after a minus sign if it is negative.  The text without
the sign is a numeral whose value is exactly that decimal. -/
theorem number_text_reads_back (x : Double) :
    (Value.string (Value.number x).toText).toNumber =
        (if x = .zero true then .zero false else x) ∧
    ∀ negative code, x = .finite negative code → 0 < code.val →
      ∃ body n, x.toText = (if negative then [Text.ascii '-'] else []) ++ body ∧
        Laid (Text.ofNat (Decimal.shortest code).digits)
          ((Decimal.shortest code).exponent + decimalLength (Decimal.shortest code).digits) body ∧
        Numeral.read? body = some n ∧ n.toDecimal.value = (Decimal.shortest code).value ∧
        (Decimal.shortest code).toDouble negative = x ∧
        (∀ d : Decimal, d.toDouble negative = x →
          decimalLength (Decimal.shortest code).digits ≤ decimalLength d.digits) ∧
        NumericString.toDouble x.toText = x := by
  constructor
  · show NumericString.toDouble x.toText = _
    cases x with
    | nan => decide
    | inf negative => cases negative <;> decide
    | finite negative code =>
      rcases Nat.eq_zero_or_pos code.val with hzero | hpos
      · obtain rfl : code = ⟨0, by decide⟩ := Fin.ext hzero
        cases negative <;> decide
      · rw [toDouble_toText hpos, if_neg]
        intro heq
        rw [(Double.finite.inj heq).2] at hpos
        exact absurd hpos (by decide)
  · rintro negative code rfl hcode
    obtain ⟨n, hread, hvalue⟩ := read?_write (Decimal.shortest code)
    refine ⟨_, n, toText_finite hcode, laid_write _, hread, hvalue, ?_, ?_, toDouble_toText hcode⟩
    · exact Decimal.toDouble_of_rounds hcode (Decimal.shortest_rounds hcode) negative
    · intro d hd
      exact Decimal.shortest_least hcode (Decimal.rounds_of_toDouble hcode hd)

/-- The number `-1.5e-7`, one place below the numbers that are written without an exponent. -/
theorem number_text_reads_back_below_plain :
    ∃ body n, (Double.finite true ⟨0x3E8421F5F40D8376, by decide⟩).toText = Text.ascii '-' :: body ∧
      body = Text.ofString "1.5e-7" ∧ Numeral.read? body = some n ∧
      n.toDecimal.value = (⟨15, -8⟩ : Decimal).value ∧
      (Value.string (Double.finite true ⟨0x3E8421F5F40D8376, by decide⟩).toText).toNumber =
        .finite true ⟨0x3E8421F5F40D8376, by decide⟩ := by
  have hshortest : Decimal.shortest ⟨0x3E8421F5F40D8376, by decide⟩ = ⟨15, -8⟩ := by
    decide +kernel
  have hread := number_text_reads_back (.finite true ⟨0x3E8421F5F40D8376, by decide⟩)
  obtain ⟨body, n, htext, -, hnumeral, hvalue, -⟩ := hread.2 _ _ rfl (by decide)
  refine ⟨body, n, htext, ?_, hnumeral, by rw [hvalue, hshortest], hread.1.trans (by decide)⟩
  have hbody := List.append_cancel_left (htext.symm.trans (toText_finite (by decide)))
  rw [hbody, hshortest]
  decide

end ScriptSimplifier
