import Mathlib.Algebra.Ring.Nat
import Mathlib.Data.List.Basic
import Mathlib.Data.Option.Basic
import ScriptSimplifier.Proofs.Text.Decoding
import ScriptSimplifier.Text.Quoted

/-!
# Quoting is undone by reading

Between quotes, bytes that stand for themselves read as the characters that they encode, and what is
no character reads as U+FFFD (`readBody_raw`).  Writing leaves no such byte as it is: whatever a
glyph is written as reads as the bytes of the glyph (`readBody_writeGlyph`).  So reading a quoted
text gives the text back (`unquote?_quote`), whichever bytes it consists of.
-/

namespace ScriptSimplifier

theorem toNat_ascii (c : Char) : (Text.ascii c).toNat = c.toNat % 256 :=
  UInt32.toNat_toUInt8 c.val

/-! ## Digits -/

/-- The digit characters of a base up to sixteen, as bytes. -/
theorem hexDigit?_digitChar {d : Nat} (h : d < 16) :
    Text.hexDigit? (Text.ascii d.digitChar) = some d := by
  have hall : ∀ d : Fin 16, Text.hexDigit? (Text.ascii d.val.digitChar) = some d.val := by decide
  exact hall ⟨d, h⟩

namespace Quoted

theorem hexValue?_toDigits (n : Nat) :
    hexValue? ((Nat.toDigits 16 n).map Text.ascii) = some n := by
  induction n using Nat.strongRecOn with
  | ind n ih =>
    by_cases hn : n < 16
    · simp [Nat.toDigits_of_lt_base hn, hexValue?, hexDigit?_digitChar hn]
    · have hhigh : hexValue? ((Nat.toDigits 16 (n / 16)).map Text.ascii) = some (n / 16) :=
        ih (n / 16) (by omega)
      have hlow : Text.hexDigit? (Text.ascii (n % 16).digitChar) = some (n % 16) :=
        hexDigit?_digitChar (Nat.mod_lt n (by omega))
      rw [Nat.toDigits_of_base_le (by omega) (by omega), List.map_append, hexValue?,
        List.foldlM_append, ← hexValue?, hhigh]
      simp [hlow, Nat.div_add_mod]

/-- The digits of a number, with zeros in front, spell the number. -/
theorem hexValue?_hex (width n : Nat) : hexValue? (Text.hex width n) = some n := by
  have hzeros : ∀ k, hexValue? (List.replicate k (Text.ascii '0')) = some 0 := by
    intro k
    induction k with
    | zero => rfl
    | succ k ih =>
      have hzero : Text.hexDigit? (Text.ascii '0') = some 0 := by decide
      simpa [hexValue?, List.replicate_succ, hzero] using ih
  have happend := hexValue?_toDigits n
  rw [hexValue?] at happend
  rw [Text.hex, hexValue?, List.foldlM_append, ← hexValue?, hzeros]
  simpa using happend

theorem length_hex {width n : Nat} (hwidth : 0 < width) (hn : n < 16 ^ width) :
    (Text.hex width n).length = width := by
  have hdigits : (Nat.toDigits 16 n).length ≤ width :=
    (Nat.length_toDigits_le_iff (by omega) hwidth).mpr hn
  simp [Text.hex]
  omega

/-! ## Between the quotes -/

/-- A byte that stands for itself between quotes. -/
def isOrdinary (b : UInt8) : Bool :=
  b != Text.ascii '"' && b != Text.ascii '\\' && b != Text.ascii '\n'

theorem readBody_drop (skip : Nat) (t : Text) : readBody skip t = readBody 0 (t.drop skip) := by
  induction t generalizing skip with
  | nil => simp [readBody]
  | cons b rest ih =>
    cases skip with
    | zero => rfl
    | succ skip => rw [readBody, ih, List.drop_succ_cons]

/-- What is read from a byte that stands for itself: the character that starts there, or U+FFFD. -/
theorem readBody_step {b : UInt8} (hb : isOrdinary b = true) (rest : Text) :
    readBody 0 (b :: rest) =
      match Glyph.lead? b rest with
      | some (c, more) => (readBody more rest).map (String.utf8EncodeChar c ++ ·)
      | none => (readBody 0 rest).map (String.utf8EncodeChar replacement ++ ·) := by
  simp only [isOrdinary, Bool.and_eq_true, bne_iff_ne, ne_eq] at hb
  rw [readBody.eq_def]
  cases hlead : Glyph.lead? b rest <;> simp [hb, hlead]

/-- A character whose bytes stand for themselves is read as it is. -/
theorem readBody_char {c : Char} (h : ∀ b ∈ String.utf8EncodeChar c, isOrdinary b = true)
    (rest : Text) :
    readBody 0 (String.utf8EncodeChar c ++ rest) =
      (readBody 0 rest).map (String.utf8EncodeChar c ++ ·) := by
  obtain ⟨first, more, hbytes, hlead⟩ := Glyph.lead?_encode c rest
  have hfirst : isOrdinary first = true := h first (by simp [hbytes])
  have hskip : readBody more.length (more ++ rest) = readBody 0 rest := by
    rw [readBody_drop, List.drop_left]
  rw [hbytes, List.cons_append, readBody_step hfirst, hlead, ← hbytes]
  simp only [hskip]

/-- Without quotes, escapes and line breaks, the characters of a text are read, and U+FFFD for each
byte that belongs to no character. -/
theorem readBody_raw {t : Text} (h : ∀ b ∈ t, isOrdinary b = true) :
    readBody 0 t = some (Text.ofChars t.chars) := by
  suffices hskip : ∀ skip, readBody skip t =
      some (Text.ofChars ((Glyph.decodeFrom skip t).map Glyph.shown)) from hskip 0
  induction t with
  | nil => intro skip; cases skip <;> rfl
  | cons b rest ih =>
    obtain ⟨hb, hrest⟩ := List.forall_mem_cons.mp h
    rintro (_ | skip)
    · rw [readBody_step hb, Glyph.decodeFrom]
      cases Glyph.lead? b rest with
      | none =>
        dsimp only
        rw [ih hrest 0]
        rfl
      | some p =>
        dsimp only
        rw [ih hrest p.2]
        rfl
    · exact ih hrest skip

theorem readBody_escape {letter : UInt8} {more bytes : Text} {rest : Text}
    (h : escape? letter (more ++ rest) = some (bytes, more.length + 1)) :
    readBody 0 (Text.ascii '\\' :: letter :: more ++ rest) =
      (readBody 0 rest).map (bytes ++ ·) := by
  have htail : readBody (more.length + 1) (letter :: (more ++ rest)) = readBody 0 rest := by
    rw [readBody_drop]
    simp
  rw [List.cons_append, List.cons_append, readBody.eq_def]
  have hquote : (Text.ascii '\\' == Text.ascii '"') = false := by decide
  have hline : (Text.ascii '\\' == Text.ascii '\n') = false := by decide
  simp only [hquote, hline, Bool.or_false, Bool.false_eq_true, if_false, beq_self_eq_true,
    if_true, h, bind, Option.bind_some, htail]
  rw [Option.map_eq_bind]
  rfl

/-- Hexadecimal digits stand for themselves. -/
theorem ordinary_of_hexValue? {digits : Text} {start n : Nat}
    (h : digits.foldlM (fun value b => (Text.hexDigit? b).map (16 * value + ·)) start = some n) :
    ∀ b ∈ digits, isOrdinary b = true := by
  have hdigit : ∀ {b : UInt8} {d : Nat}, Text.hexDigit? b = some d → isOrdinary b = true := by
    intro b d hb
    simp only [isOrdinary, Bool.and_eq_true, bne_iff_ne, ne_eq]
    refine ⟨⟨?_, ?_⟩, ?_⟩ <;> rintro rfl <;> revert hb <;> decide +revert
  induction digits generalizing start with
  | nil => simp
  | cons b digits ih =>
    rw [List.foldlM_cons] at h
    obtain ⟨value, hvalue, hrest⟩ := Option.bind_eq_some_iff.mp h
    obtain ⟨d, hd, _⟩ := Option.map_eq_some_iff.mp hvalue
    exact List.forall_mem_cons.mpr ⟨hdigit hd, ih hrest⟩

/-- What an escape consists of: its letter and what follows stand for some bytes wherever they
stand behind a backslash. -/
structure Escapes (letter : UInt8) (more bytes : Text) : Prop where
  ordinary : ∀ b ∈ more, isOrdinary b = true
  reads : ∀ rest, escape? letter (more ++ rest) = some (bytes, more.length + 1)

theorem escapes_byte {n : Nat} (h : n < 256) :
    Escapes (Text.ascii 'x') (Text.hex 2 n) [UInt8.ofNat n] := by
  refine ⟨ordinary_of_hexValue? (hexValue?_hex 2 n), fun rest => ?_⟩
  have hlength : (Text.hex 2 n).length = 2 := length_hex (by omega) h
  have htake : (Text.hex 2 n ++ rest).take 2 = Text.hex 2 n := by
    rw [List.take_append_of_le_length (by omega), List.take_of_length_le (by omega)]
  have hletter : letterByte? (Text.ascii 'x') = none := by decide
  have hwidth : hexWidth? (Text.ascii 'x') = some 2 := by decide
  simp [escape?, hletter, hwidth, htake, hlength, hexValue?_hex]

theorem escapes_char {letter : UInt8} {width : Nat} (hletter : letterByte? letter = none)
    (hwidth : hexWidth? letter = some width) (hwide : 2 < width) {c : Char}
    (hc : c.toNat < 16 ^ width) :
    Escapes letter (Text.hex width c.toNat) (String.utf8EncodeChar c) := by
  refine ⟨ordinary_of_hexValue? (hexValue?_hex width c.toNat), fun rest => ?_⟩
  have hlength : (Text.hex width c.toNat).length = width := length_hex (by omega) hc
  have htake : (Text.hex width c.toNat ++ rest).take width = Text.hex width c.toNat := by
    rw [List.take_append_of_le_length (by omega), List.take_of_length_le (by omega)]
  have hne : width ≠ 2 := by omega
  have hscalar : Glyph.scalar? 0 c.toNat = some c := Glyph.scalar?_toNat rfl (Nat.zero_le _)
  simp [escape?, hletter, hwidth, htake, hlength, hexValue?_hex, hne, hscalar]

theorem escapes_letter {letter b : UInt8} (h : letterByte? letter = some b) :
    Escapes letter [] [b] :=
  ⟨by simp, fun rest => by simp [escape?, h]⟩

/-- Reading a one-letter escape undoes writing it. -/
theorem letterByte?_controlLetter {n : Nat} {letter : Char} (h : controlLetter? n = some letter) :
    n ≤ 127 ∧ letterByte? (Text.ascii letter) = some (UInt8.ofNat n) := by
  unfold controlLetter? at h
  split at h
  case h_8 => cases h
  all_goals
    obtain rfl := Option.some.inj h
    decide

/-- The bytes of a character behind ASCII are behind ASCII. -/
theorem le_of_mem_utf8EncodeChar {c : Char} (hc : 127 < c.toNat) {b : UInt8}
    (hb : b ∈ String.utf8EncodeChar c) : 128 ≤ b.toNat := by
  have hval : c.val.toNat = c.toNat := rfl
  have hlarge : ∀ {x : Nat}, 128 ≤ x → x < 256 → b = UInt8.ofNat x → 128 ≤ b.toNat := by
    rintro x hx hx' rfl
    rw [UInt8.toNat_ofNat']
    omega
  rw [String.utf8EncodeChar, hval, if_neg (by omega)] at hb
  split at hb
  · simp only [List.mem_cons, List.not_mem_nil, or_false] at hb
    rcases hb with hb | hb <;> exact hlarge (by omega) (by omega) hb
  · split at hb
    · simp only [List.mem_cons, List.not_mem_nil, or_false] at hb
      rcases hb with hb | hb | hb <;> exact hlarge (by omega) (by omega) hb
    · simp only [List.mem_cons, List.not_mem_nil, or_false] at hb
      rcases hb with hb | hb | hb | hb <;> exact hlarge (by omega) (by omega) hb

theorem utf8EncodeChar_ascii {c : Char} (hc : c.toNat ≤ 127) :
    String.utf8EncodeChar c = [UInt8.ofNat c.toNat] := by
  rw [String.utf8EncodeChar, show c.val.toNat = c.toNat from rfl, if_pos hc]

/-- A printable character other than the quote and the backslash stands for itself. -/
theorem ordinary_of_isPrintable {c : Char} (hprintable : isPrintable c = true) (hquote : c ≠ '"')
    (hbackslash : c ≠ '\\') : ∀ b ∈ String.utf8EncodeChar c, isOrdinary b = true := by
  have hline : c ≠ '\n' := by
    rintro rfl
    exact absurd hprintable (by decide)
  intro b hb
  simp only [isOrdinary, Bool.and_eq_true, bne_iff_ne, ne_eq]
  by_cases hc : c.toNat ≤ 127
  · rw [utf8EncodeChar_ascii hc, List.mem_singleton] at hb
    subst hb
    have hbyte : ∀ d : Char, d.toNat ≤ 127 → UInt8.ofNat c.toNat = Text.ascii d → c = d := by
      intro d hd heq
      have hnat : c.toNat = d.toNat := by
        have hbytes := congrArg UInt8.toNat heq
        rw [toNat_ascii, UInt8.toNat_ofNat'] at hbytes
        omega
      exact Char.toNat_inj.mp hnat
    exact ⟨⟨fun h => hquote (hbyte _ (by decide) h), fun h => hbackslash (hbyte _ (by decide) h)⟩,
      fun h => hline (hbyte _ (by decide) h)⟩
  · have hlarge := le_of_mem_utf8EncodeChar (by omega) hb
    refine ⟨⟨?_, ?_⟩, ?_⟩ <;> rintro rfl <;> exact absurd hlarge (by decide)

/-- A glyph is written as the bytes of a character or as an escape that stands for its bytes. -/
theorem writeGlyph_cases (g : Glyph) :
    (∃ c, g = .char c ∧ writeGlyph g = String.utf8EncodeChar c ∧
        ∀ b ∈ String.utf8EncodeChar c, isOrdinary b = true) ∨
      ∃ letter more, writeGlyph g = Text.ascii '\\' :: letter :: more ∧
        Escapes letter more g.encode := by
  cases g with
  | stray b =>
    have hescapes := escapes_byte b.toNat_lt
    rw [UInt8.ofNat_toNat] at hescapes
    exact .inr ⟨_, _, rfl, hescapes⟩
  | char c =>
    rw [writeGlyph, writeChar, Glyph.encode]
    split
    · rename_i hspecial
      refine .inr ⟨_, _, rfl, ?_⟩
      rcases hspecial with rfl | rfl
      · exact escapes_letter rfl
      · exact escapes_letter rfl
    · rename_i hordinary
      obtain ⟨hquote, hbackslash⟩ := not_or.mp hordinary
      split
      · -- a printable character stands for itself, the rest are escaped
        rename_i hprintable
        exact .inl ⟨c, rfl, rfl, ordinary_of_isPrintable hprintable hquote hbackslash⟩
      · refine .inr ?_
        split
        · rename_i letter hletter
          obtain ⟨hascii, hbyte⟩ := letterByte?_controlLetter hletter
          refine ⟨_, _, rfl, ?_⟩
          rw [utf8EncodeChar_ascii hascii]
          exact escapes_letter hbyte
        · split
          · rename_i hascii
            refine ⟨_, _, rfl, ?_⟩
            rw [utf8EncodeChar_ascii (by omega)]
            exact escapes_byte (by omega)
          · split
            · rename_i hsmall
              exact ⟨_, _, rfl, escapes_char rfl rfl (by omega) hsmall⟩
            · refine ⟨_, _, rfl, escapes_char rfl rfl (by omega) ?_⟩
              have hvalid : c.toNat.isValidChar := c.valid
              rw [Nat.isValidChar] at hvalid
              omega

/-- What a glyph is written as reads as the bytes of the glyph. -/
theorem readBody_writeGlyph (g : Glyph) (rest : Text) :
    readBody 0 (writeGlyph g ++ rest) = (readBody 0 rest).map (g.encode ++ ·) := by
  rcases writeGlyph_cases g with ⟨c, rfl, hwrite, hordinary⟩ | ⟨letter, more, hwrite, hescapes⟩
  · rw [hwrite, readBody_char hordinary]
    rfl
  · rw [hwrite, readBody_escape (hescapes.reads rest)]

theorem readBody_writeGlyphs (glyphs : List Glyph) :
    readBody 0 (glyphs.flatMap writeGlyph) = some (Text.ofGlyphs glyphs) := by
  induction glyphs with
  | nil => rfl
  | cons g glyphs ih =>
    rw [List.flatMap_cons, readBody_writeGlyph, ih]
    rfl

end Quoted

/-- Reading a quoted text gives the text. -/
theorem unquote?_quote (t : Text) : t.quote.unquote? = some t := by
  have hlast : (t.glyphs.flatMap Quoted.writeGlyph ++ [Text.ascii '"']).getLast? =
      some (Text.ascii '"') := List.getLast?_concat
  rw [Text.quote, Text.unquote?, hlast, List.dropLast_concat, Quoted.readBody_writeGlyphs,
    ofGlyphs_glyphs]
  simp

end ScriptSimplifier
