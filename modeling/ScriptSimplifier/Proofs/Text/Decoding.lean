import Mathlib.Algebra.Ring.Nat
import Mathlib.Data.List.Basic
import Mathlib.Data.Option.Basic
import ScriptSimplifier.Text.Glyph

/-!
# Decoding and encoding

Decoding a text into glyphs loses nothing (`ofGlyphs_glyphs`).  The bytes of a character decode to
the character, whatever follows them (`lead?_encode`), so the glyphs of encoded characters are the
characters (`glyphs_ofChars`).  Well-formed texts and sequences of characters correspond one to one.
-/

namespace ScriptSimplifier

theorem toNat_ofNat {n : Nat} (h : n.isValidChar) : (Char.ofNat n).toNat = n := by
  unfold Char.ofNat
  rw [dif_pos h]
  rfl

/-! ## Nothing is lost -/

namespace Glyph

theorem continuation?_eq {b : UInt8} {x : Nat} (h : continuation? b = some x) :
    x < 64 ∧ b.toNat = x + 0x80 := by
  unfold continuation? at h
  split at h
  · rename_i hb
    obtain rfl := Option.some.inj h
    simp only [Bool.and_eq_true, decide_eq_true_eq, UInt8.le_iff_toNat_le] at hb
    obtain ⟨hlow, hhigh⟩ := hb
    have : (0x80 : UInt8).toNat = 0x80 := rfl
    have : (0xBF : UInt8).toNat = 0xBF := rfl
    omega
  · cases h

theorem scalar?_eq {least code : Nat} {c : Char} (h : scalar? least code = some c) :
    c.toNat = code ∧ least ≤ code ∧ code ≤ 0x10FFFF := by
  unfold scalar? at h
  split at h
  · rename_i hcode
    obtain rfl := Option.some.inj h
    refine ⟨?_, hcode.1, hcode.2.2⟩
    have hvalid : code.isValidChar := by
      rw [Nat.isValidChar]
      omega
    exact toNat_ofNat hvalid
  · cases h

theorem eq_ofNat {b : UInt8} {x : Nat} (h : b.toNat = x) : b = UInt8.ofNat x := by
  subst h
  simp

/-! One lemma for each number of bytes: a lead byte in its range and the bits of the bytes behind it
are what the character is written as, since each number of bytes has codes of its own. -/

theorem utf8_one {c : Char} {lead : UInt8} (hlead : lead.toNat < 0x80) (hc : c.toNat = lead.toNat) :
    [lead] = String.utf8EncodeChar c := by
  have hval : c.val.toNat = lead.toNat := hc
  rw [String.utf8EncodeChar, hval, if_pos (by omega)]
  simp

theorem utf8_two {c : Char} {lead a : UInt8} {x : Nat} (hlow : 0xC0 ≤ lead.toNat)
    (hhigh : lead.toNat < 0xE0) (ha : x < 64 ∧ a.toNat = x + 0x80)
    (hc : c.toNat = (lead.toNat - 0xC0) * 64 + x) (hleast : 0x80 ≤ c.toNat) :
    [lead, a] = String.utf8EncodeChar c := by
  have hval : c.val.toNat = c.toNat := rfl
  rw [String.utf8EncodeChar, hval, if_neg (by omega), if_pos (by omega)]
  simp only [List.cons.injEq, and_true]
  exact ⟨eq_ofNat (by omega), eq_ofNat (by omega)⟩

theorem utf8_three {c : Char} {lead a b : UInt8} {x y : Nat} (hlow : 0xE0 ≤ lead.toNat)
    (hhigh : lead.toNat < 0xF0) (ha : x < 64 ∧ a.toNat = x + 0x80)
    (hb : y < 64 ∧ b.toNat = y + 0x80)
    (hc : c.toNat = ((lead.toNat - 0xE0) * 64 + x) * 64 + y) (hleast : 0x800 ≤ c.toNat) :
    [lead, a, b] = String.utf8EncodeChar c := by
  have hval : c.val.toNat = c.toNat := rfl
  rw [String.utf8EncodeChar, hval, if_neg (by omega), if_neg (by omega), if_pos (by omega)]
  simp only [List.cons.injEq, and_true]
  exact ⟨eq_ofNat (by omega), eq_ofNat (by omega), eq_ofNat (by omega)⟩

theorem utf8_four {c : Char} {lead a b d : UInt8} {x y z : Nat} (hlow : 0xF0 ≤ lead.toNat)
    (hhigh : lead.toNat < 0xF8) (ha : x < 64 ∧ a.toNat = x + 0x80)
    (hb : y < 64 ∧ b.toNat = y + 0x80) (hd : z < 64 ∧ d.toNat = z + 0x80)
    (hc : c.toNat = (((lead.toNat - 0xF0) * 64 + x) * 64 + y) * 64 + z)
    (hleast : 0x10000 ≤ c.toNat) (hmost : c.toNat ≤ 0x10FFFF) :
    [lead, a, b, d] = String.utf8EncodeChar c := by
  have hval : c.val.toNat = c.toNat := rfl
  rw [String.utf8EncodeChar, hval, if_neg (by omega), if_neg (by omega), if_neg (by omega)]
  simp only [List.cons.injEq, and_true]
  exact ⟨eq_ofNat (by omega), eq_ofNat (by omega), eq_ofNat (by omega), eq_ofNat (by omega)⟩

/-- The bytes of the character that is read at the front of a text. -/
theorem lead?_eq {lead : UInt8} {rest : Text} {c : Char} {n : Nat}
    (h : lead? lead rest = some (c, n)) :
    lead :: rest.take n = String.utf8EncodeChar c := by
  unfold lead? at h
  simp only [Bool.and_eq_true, decide_eq_true_eq, UInt8.le_iff_toNat_le, UInt8.lt_iff_toNat_lt]
    at h
  split_ifs at h with hone htwo hthree hfour
  · obtain ⟨rfl, rfl⟩ : Char.ofNat lead.toNat = c ∧ 0 = n := by simpa using h
    refine utf8_one hone (toNat_ofNat ?_)
    rw [Nat.isValidChar]
    exact .inl (Nat.lt_trans hone (by decide))
  · split at h
    · simp only [bind, Option.bind_eq_some_iff, pure, Option.some.injEq, Prod.mk.injEq] at h
      obtain ⟨x, hx, c', hc', rfl, rfl⟩ := h
      obtain ⟨hcode, hleast, -⟩ := scalar?_eq hc'
      exact utf8_two htwo.1 htwo.2 (continuation?_eq hx) hcode (hcode ▸ hleast)
    · cases h
  · split at h
    · simp only [bind, Option.bind_eq_some_iff, pure, Option.some.injEq, Prod.mk.injEq] at h
      obtain ⟨x, hx, y, hy, c', hc', rfl, rfl⟩ := h
      obtain ⟨hcode, hleast, -⟩ := scalar?_eq hc'
      exact utf8_three hthree.1 hthree.2 (continuation?_eq hx) (continuation?_eq hy) hcode
        (hcode ▸ hleast)
    · cases h
  · split at h
    · simp only [bind, Option.bind_eq_some_iff, pure, Option.some.injEq, Prod.mk.injEq] at h
      obtain ⟨x, hx, y, hy, z, hz, c', hc', rfl, rfl⟩ := h
      obtain ⟨hcode, hleast, hmost⟩ := scalar?_eq hc'
      exact utf8_four hfour.1 hfour.2 (continuation?_eq hx) (continuation?_eq hy)
        (continuation?_eq hz) hcode (hcode ▸ hleast) (hcode ▸ hmost)
    · cases h

theorem ofGlyphs_decodeFrom (skip : Nat) (t : Text) :
    Text.ofGlyphs (decodeFrom skip t) = t.drop skip := by
  induction t generalizing skip with
  | nil => cases skip <;> simp [decodeFrom, Text.ofGlyphs]
  | cons b rest ih =>
    cases skip with
    | succ skip => simpa [decodeFrom] using ih skip
    | zero =>
      rw [decodeFrom]
      split
      · rename_i c more hlead
        have hrest : Text.ofGlyphs (decodeFrom more rest) = rest.drop more := ih more
        have hbytes : b :: rest.take more = String.utf8EncodeChar c := lead?_eq hlead
        calc Text.ofGlyphs (.char c :: decodeFrom more rest)
            = String.utf8EncodeChar c ++ Text.ofGlyphs (decodeFrom more rest) := rfl
          _ = b :: (rest.take more ++ rest.drop more) := by rw [hrest, ← hbytes]; rfl
          _ = b :: rest := by rw [List.take_append_drop]
      · have hrest : Text.ofGlyphs (decodeFrom 0 rest) = rest := by simpa using ih 0
        calc Text.ofGlyphs (.stray b :: decodeFrom 0 rest)
            = b :: Text.ofGlyphs (decodeFrom 0 rest) := rfl
          _ = b :: rest := by rw [hrest]

end Glyph

/-- Nothing is lost when a text is decoded. -/
theorem ofGlyphs_glyphs (t : Text) : Text.ofGlyphs t.glyphs = t :=
  Glyph.ofGlyphs_decodeFrom 0 t

/-! ## Characters -/

namespace Glyph

theorem toNat_byte {n : Nat} (h : n < 256) : (UInt8.ofNat n).toNat = n :=
  UInt8.toNat_ofNat_of_lt' h

theorem continuation?_ofNat {x : Nat} (h : x < 64) :
    continuation? (UInt8.ofNat (x + 128)) = some x := by
  have hbyte : (UInt8.ofNat (x + 128)).toNat = x + 128 := toNat_byte (by omega)
  have hlow : (0x80 : UInt8).toNat = 0x80 := rfl
  have hhigh : (0xBF : UInt8).toNat = 0xBF := rfl
  rw [continuation?, if_pos, hbyte, Nat.add_sub_cancel]
  simp only [Bool.and_eq_true, decide_eq_true_eq, UInt8.le_iff_toNat_le]
  omega

theorem scalar?_toNat {c : Char} {least code : Nat} (hcode : code = c.toNat)
    (h : least ≤ c.toNat) : scalar? least code = some c := by
  have hvalid : c.toNat.isValidChar := c.valid
  rw [Nat.isValidChar] at hvalid
  rw [scalar?, hcode, if_pos (by omega)]
  exact congrArg some (Char.ofNat_toNat c)

section Lead

variable {lead a b d : UInt8} {x y z : Nat} {c : Char} {rest : Text}

theorem not_ascii (h : 0x80 ≤ lead.toNat) : ¬ lead < 0x80 := by
  rw [UInt8.lt_iff_toNat_lt]
  exact Nat.not_lt.mpr h

/-- The range of a first byte, as it is tested. -/
theorem byte_range (low high : UInt8) :
    (low ≤ lead && lead < high) = decide (low.toNat ≤ lead.toNat ∧ lead.toNat < high.toNat) := by
  simp only [UInt8.le_iff_toNat_le, UInt8.lt_iff_toNat_lt, Bool.decide_and]

theorem lead?_two (hlow : 0xC0 ≤ lead.toNat) (hhigh : lead.toNat < 0xE0)
    (ha : continuation? a = some x)
    (hc : scalar? 0x80 ((lead.toNat - 0xC0) * 64 + x) = some c) :
    lead? lead (a :: rest) = some (c, 1) := by
  have hrange : (0xC0 ≤ lead && lead < 0xE0) = true := by
    rw [byte_range]
    exact decide_eq_true ⟨hlow, hhigh⟩
  unfold lead?
  rw [if_neg (not_ascii (by omega)), if_pos hrange]
  simp [ha, hc]

theorem lead?_three (hlow : 0xE0 ≤ lead.toNat) (hhigh : lead.toNat < 0xF0)
    (ha : continuation? a = some x) (hb : continuation? b = some y)
    (hc : scalar? 0x800 (((lead.toNat - 0xE0) * 64 + x) * 64 + y) = some c) :
    lead? lead (a :: b :: rest) = some (c, 2) := by
  have hless : ¬ (0xC0 ≤ lead && lead < 0xE0) = true := by
    rw [byte_range, decide_eq_true_iff]
    exact fun h => Nat.not_lt.mpr hlow h.2
  have hrange : (0xE0 ≤ lead && lead < 0xF0) = true := by
    rw [byte_range]
    exact decide_eq_true ⟨hlow, hhigh⟩
  unfold lead?
  rw [if_neg (not_ascii (by omega)), if_neg hless, if_pos hrange]
  simp [ha, hb, hc]

theorem lead?_four (hlow : 0xF0 ≤ lead.toNat) (hhigh : lead.toNat < 0xF8)
    (ha : continuation? a = some x) (hb : continuation? b = some y) (hd : continuation? d = some z)
    (hc : scalar? 0x10000 ((((lead.toNat - 0xF0) * 64 + x) * 64 + y) * 64 + z) = some c) :
    lead? lead (a :: b :: d :: rest) = some (c, 3) := by
  have hless : ¬ (0xC0 ≤ lead && lead < 0xE0) = true := by
    rw [byte_range, decide_eq_true_iff]
    exact fun h => Nat.not_lt.mpr (Nat.le_trans (by decide) hlow) h.2
  have hless' : ¬ (0xE0 ≤ lead && lead < 0xF0) = true := by
    rw [byte_range, decide_eq_true_iff]
    exact fun h => Nat.not_lt.mpr hlow h.2
  have hrange : (0xF0 ≤ lead && lead < 0xF8) = true := by
    rw [byte_range]
    exact decide_eq_true ⟨hlow, hhigh⟩
  unfold lead?
  rw [if_neg (not_ascii (by omega)), if_neg hless, if_neg hless', if_pos hrange]
  simp [ha, hb, hd, hc]

end Lead

/-- The bytes of a character decode to it. -/
theorem lead?_encode (c : Char) (rest : Text) : ∃ first more,
    String.utf8EncodeChar c = first :: more ∧
      lead? first (more ++ rest) = some (c, more.length) := by
  -- one case for each number of bytes, told apart by the code
  have hvalid : c.toNat.isValidChar := c.valid
  rw [Nat.isValidChar] at hvalid
  have hval : c.val.toNat = c.toNat := rfl
  have hlow {n : Nat} : continuation? (UInt8.ofNat (n % 64 + 128)) = some (n % 64) :=
    continuation?_ofNat (Nat.mod_lt n (by decide))
  rw [String.utf8EncodeChar, hval]
  split
  · rename_i hone
    have hbyte : (UInt8.ofNat c.toNat).toNat = c.toNat := toNat_byte (by omega)
    have hascii : UInt8.ofNat c.toNat < 0x80 := by
      rw [UInt8.lt_iff_toNat_lt, hbyte]
      exact Nat.lt_succ_of_le hone
    refine ⟨_, _, rfl, ?_⟩
    unfold lead?
    rw [if_pos hascii, hbyte, Char.ofNat_toNat]
    rfl
  · split
    · have hbyte : (UInt8.ofNat (c.toNat / 64 % 32 + 192)).toNat = c.toNat / 64 % 32 + 192 :=
        toNat_byte (by omega)
      refine ⟨_, _, rfl, lead?_two (by omega) (by omega) hlow ?_⟩
      exact scalar?_toNat (by omega) (by omega)
    · split
      · have hbyte : (UInt8.ofNat (c.toNat / 4096 % 16 + 224)).toNat =
            c.toNat / 4096 % 16 + 224 := toNat_byte (by omega)
        refine ⟨_, _, rfl, lead?_three (by omega) (by omega) hlow hlow ?_⟩
        exact scalar?_toNat (by omega) (by omega)
      · have hbyte : (UInt8.ofNat (c.toNat / 262144 % 8 + 240)).toNat =
            c.toNat / 262144 % 8 + 240 := toNat_byte (by omega)
        refine ⟨_, _, rfl, lead?_four (by omega) (by omega) hlow hlow hlow ?_⟩
        exact scalar?_toNat (by omega) (by omega)

theorem decodeFrom_length (front rest : Text) :
    decodeFrom front.length (front ++ rest) = decodeFrom 0 rest := by
  induction front with
  | nil => rfl
  | cons b front ih => exact ih

end Glyph

/-- The glyphs of encoded characters, whatever follows them. -/
theorem glyphs_ofChars_append (cs : List Char) (rest : Text) :
    (Text.ofChars cs ++ rest).glyphs = cs.map .char ++ rest.glyphs := by
  induction cs with
  | nil => rfl
  | cons c cs ih =>
    obtain ⟨first, more, hbytes, hlead⟩ := Glyph.lead?_encode c (Text.ofChars cs ++ rest)
    have hcons : Text.ofChars (c :: cs) ++ rest = first :: (more ++ (Text.ofChars cs ++ rest)) := by
      rw [Text.ofChars, List.flatMap_cons, hbytes, ← Text.ofChars, List.cons_append,
        List.cons_append, List.append_assoc]
    rw [hcons, Text.glyphs, Glyph.decodeFrom, hlead]
    show Glyph.char c :: Glyph.decodeFrom more.length (more ++ (Text.ofChars cs ++ rest)) = _
    rw [Glyph.decodeFrom_length, ← Text.glyphs, ih]
    rfl

theorem glyphs_ofChars (cs : List Char) : (Text.ofChars cs).glyphs = cs.map .char := by
  have happend := glyphs_ofChars_append cs []
  rw [List.append_nil] at happend
  rw [happend]
  exact List.append_nil _

/-- The characters of encoded characters. -/
theorem chars_ofChars (cs : List Char) : (Text.ofChars cs).chars = cs := by
  rw [Text.chars, glyphs_ofChars, List.map_map]
  exact List.map_id cs

theorem ofChars_append (front back : List Char) :
    Text.ofChars (front ++ back) = Text.ofChars front ++ Text.ofChars back :=
  List.flatMap_append

end ScriptSimplifier
