import Mathlib.Data.List.Lex
import ScriptSimplifier.Proofs.Text.Decoding
import ScriptSimplifier.Value.Operator

/-!
# The order of strings

Strings are ordered by the UTF-16 code units of their characters.  No code unit of a character is a
code unit of another one's, except for surrogates, and these come in pairs, so the code units
determine the characters (`units_inj`).  They need not determine the bytes: every byte that is part
of no character counts as U+FFFD.  So the order is total on the characters, and agrees with the
equality of the bytes for two strings just in case equal characters mean equal bytes
(`string_comparison`); on well-formed strings this is always so.
-/

namespace ScriptSimplifier

/-! ## Code units -/

/-- The UTF-16 code units of characters: a character up to U+FFFF is its own unit, any other one is
a high and a low surrogate with ten bits each. -/
inductive Utf16 : List Char → List ℕ → Prop where
  | nil : Utf16 [] []
  | basic {c : Char} {cs : List Char} {units : List ℕ} (plane : c.toNat ≤ 0xFFFF)
    (rest : Utf16 cs units) : Utf16 (c :: cs) (c.toNat :: units)
  | surrogates {c : Char} {cs : List Char} {units : List ℕ} {high low : ℕ} (ten : high < 2 ^ 10)
    (ten' : low < 2 ^ 10) (code : c.toNat = 0x10000 + high * 2 ^ 10 + low) (rest : Utf16 cs units) :
    Utf16 (c :: cs) ((0xD800 + high) :: (0xDC00 + low) :: units)

/-- What the code units of a character are. -/
theorem charUnits_cases (c : Char) :
    (c.toNat ≤ 0xFFFF ∧ ¬ (0xD800 ≤ c.toNat ∧ c.toNat ≤ 0xDFFF) ∧ charUnits c = [c.toNat]) ∨
    ∃ high low, high < 2 ^ 10 ∧ low < 2 ^ 10 ∧ c.toNat = 0x10000 + high * 2 ^ 10 + low ∧
      charUnits c = [0xD800 + high, 0xDC00 + low] := by
  have hvalid : c.toNat.isValidChar := c.valid
  rw [Nat.isValidChar] at hvalid
  rw [charUnits]
  rcases Nat.lt_or_ge c.toNat 0x10000 with hplane | hbeyond
  · exact .inl ⟨by omega, by omega, if_pos hplane⟩
  · exact .inr ⟨(c.toNat - 0x10000) / 0x400, (c.toNat - 0x10000) % 0x400, by omega, by omega,
      by omega, if_neg (by omega)⟩

/-- The code units of a text are those of its characters. -/
theorem utf16_iff {cs : List Char} {units : List ℕ} :
    Utf16 cs units ↔ units = cs.flatMap charUnits := by
  constructor
  · intro h
    induction h with
    | nil => rfl
    | @basic c cs units plane _ ih =>
      have hunits : charUnits c = [c.toNat] := if_pos (Nat.lt_succ_of_le plane)
      rw [List.flatMap_cons, hunits, ih, List.singleton_append]
    | @surrogates c cs units high low ten ten' code _ ih =>
      have hhigh : (c.toNat - 0x10000) / 0x400 = high := by omega
      have hlow : (c.toNat - 0x10000) % 0x400 = low := by omega
      have hunits : charUnits c = [0xD800 + high, 0xDC00 + low] := by
        rw [← hhigh, ← hlow]
        exact if_neg (by omega)
      rw [List.flatMap_cons, hunits, ih]
      rfl
  · rintro rfl
    induction cs with
    | nil => exact .nil
    | cons c cs ih =>
      rw [List.flatMap_cons]
      rcases charUnits_cases c with ⟨hplane, -, hunits⟩ | ⟨high, low, hten, hten', hcode, hunits⟩
      · rw [hunits]
        exact .basic hplane ih
      · rw [hunits]
        exact .surrogates hten hten' hcode ih

/-- The first code units tell the first character. -/
theorem charUnits_append_inj {c d : Char} {s t : List ℕ}
    (h : charUnits c ++ s = charUnits d ++ t) : c = d ∧ s = t := by
  -- a surrogate is no character, so one unit is never the first of two
  have hcode : c.toNat = d.toNat ∧ s = t := by
    rcases charUnits_cases c with ⟨-, hc, hunits⟩ | ⟨high, low, hten, hten', hc, hunits⟩
    all_goals
      rcases charUnits_cases d with ⟨-, hd, hunits'⟩ | ⟨high', low', hten₂, hten₂', hd, hunits'⟩
    all_goals simp only [hunits, hunits', List.cons_append, List.nil_append, List.cons.injEq] at h
    all_goals refine ⟨by omega, ?_⟩
    · exact h.2
    · omega
    · omega
    · exact h.2.2
  exact ⟨Char.toNat_inj.mp hcode.1, hcode.2⟩

theorem charUnits_ne_nil (c : Char) : charUnits c ≠ [] := by
  rw [charUnits]
  split <;> exact List.cons_ne_nil _ _

/-- The code units determine the characters. -/
theorem flatMap_charUnits_inj {cs ds : List Char}
    (h : cs.flatMap charUnits = ds.flatMap charUnits) : cs = ds := by
  induction cs generalizing ds with
  | nil =>
    cases ds with
    | nil => rfl
    | cons d ds =>
      rw [List.flatMap_cons] at h
      exact absurd (List.append_eq_nil_iff.mp h.symm).1 (charUnits_ne_nil d)
  | cons c cs ih =>
    cases ds with
    | nil =>
      rw [List.flatMap_cons] at h
      exact absurd (List.append_eq_nil_iff.mp h).1 (charUnits_ne_nil c)
    | cons d ds =>
      rw [List.flatMap_cons, List.flatMap_cons] at h
      obtain ⟨rfl, hrest⟩ := charUnits_append_inj h
      rw [ih hrest]

theorem units_inj {l r : Text} : l.units = r.units ↔ l.chars = r.chars :=
  ⟨flatMap_charUnits_inj, fun h => congrArg (List.flatMap charUnits) h⟩

namespace Value

/-! ## Comparisons -/

/-- A comparison of two strings folds to true. -/
def Holds (operator : Text) (l r : Text) : Prop :=
  evalBinary? operator (.string l) (.string r) = some (.boolean true)

/-- One of three statements holds, and the others do not. -/
def ExactlyOne (p q r : Prop) : Prop :=
  (p ∧ ¬ q ∧ ¬ r) ∨ (¬ p ∧ q ∧ ¬ r) ∨ (¬ p ∧ ¬ q ∧ r)

section Comparisons

variable {l r : Text}

theorem holds_less : Holds (Text.ofString "<") l r ↔ l.units < r.units := by
  have hspelling : BinaryOp.ofSpelling? (Text.ofString "<") = some .less := by decide
  simp [Holds, evalBinary?, hspelling, BinaryOp.apply, less?, Text.unitsLt]

theorem holds_greater : Holds (Text.ofString ">") l r ↔ r.units < l.units := by
  have hspelling : BinaryOp.ofSpelling? (Text.ofString ">") = some .greater := by decide
  simp [Holds, evalBinary?, hspelling, BinaryOp.apply, less?, Text.unitsLt]

theorem holds_atMost : Holds (Text.ofString "<=") l r ↔ ¬ r.units < l.units := by
  have hspelling : BinaryOp.ofSpelling? (Text.ofString "<=") = some .atMost := by decide
  simp [Holds, evalBinary?, hspelling, BinaryOp.apply, less?, Text.unitsLt]

theorem holds_strictEq : Holds (Text.ofString "===") l r ↔ l = r := by
  have hspelling : BinaryOp.ofSpelling? (Text.ofString "===") = some .strictEq := by decide
  simp [Holds, evalBinary?, hspelling, BinaryOp.apply, strictEq]

/-- Any two strings are comparable by their characters. -/
theorem less_trichotomy : ExactlyOne (Holds (Text.ofString "<") l r) (l.chars = r.chars)
    (Holds (Text.ofString ">") l r) := by
  rw [holds_less, holds_greater, ← units_inj]
  rcases lt_trichotomy l.units r.units with hlt | heq | hgt
  · exact .inl ⟨hlt, hlt.ne, hlt.asymm⟩
  · exact .inr (.inl ⟨heq.not_lt, heq, heq.not_gt⟩)
  · exact .inr (.inr ⟨hgt.asymm, hgt.ne', hgt⟩)

theorem atMost_iff : Holds (Text.ofString "<=") l r ↔
    Holds (Text.ofString "<") l r ∨ l.chars = r.chars := by
  rw [holds_atMost, holds_less, ← units_inj, not_lt, le_iff_lt_or_eq]

theorem holds_strictEq_iff (h : l.chars = r.chars → l = r) :
    Holds (Text.ofString "===") l r ↔ l.chars = r.chars :=
  holds_strictEq.trans ⟨congrArg Text.chars, h⟩

end Comparisons

/-- Strings are totally ordered by their characters, `<=` is `<` or equality of the characters, and
`<` is transitive.  This agrees with `===`, which compares bytes, for just those strings that are
equal if their characters are.  Well-formed strings are, and they are ordered by their UTF-16 code
units. -/
theorem string_comparison (l r s : Text) :
    (ExactlyOne (Holds (Text.ofString "<") l r) (l.chars = r.chars)
        (Holds (Text.ofString ">") l r) ∧
      (Holds (Text.ofString "<=") l r ↔ Holds (Text.ofString "<") l r ∨ l.chars = r.chars) ∧
      (Holds (Text.ofString "<") l r → Holds (Text.ofString "<") r s →
        Holds (Text.ofString "<") l s)) ∧
    (ExactlyOne (Holds (Text.ofString "<") l r) (Holds (Text.ofString "===") l r)
        (Holds (Text.ofString ">") l r) ↔ (l.chars = r.chars → l = r)) ∧
    ((Holds (Text.ofString "<=") l r ↔
        Holds (Text.ofString "<") l r ∨ Holds (Text.ofString "===") l r) ↔
      (l.chars = r.chars → l = r)) ∧
    ∀ cs ds, l = Text.ofChars cs → r = Text.ofChars ds →
      (l.chars = r.chars → l = r) ∧
      ∃ units units', Utf16 cs units ∧ Utf16 ds units' ∧
        (Holds (Text.ofString "<") l r ↔ units < units') := by
  refine ⟨⟨less_trichotomy, atMost_iff, ?_⟩, ?_, ?_, ?_⟩
  · rw [holds_less, holds_less, holds_less]
    exact lt_trans
  · constructor
    · intro hone hchars
      -- with the same characters neither text is less, so they have to be equal
      have hunits := units_inj.mpr hchars
      rcases hone with ⟨hless, -⟩ | ⟨-, hequal, -⟩ | ⟨-, -, hgreater⟩
      · exact absurd hunits (holds_less.mp hless).ne
      · exact holds_strictEq.mp hequal
      · exact absurd hunits (holds_greater.mp hgreater).ne'
    · intro hequal
      rw [holds_strictEq_iff hequal]
      exact less_trichotomy
  · constructor
    · intro hiff hchars
      rcases hiff.mp (atMost_iff.mpr (.inr hchars)) with hless | hequal
      · exact absurd (units_inj.mpr hchars) (holds_less.mp hless).ne
      · exact holds_strictEq.mp hequal
    · intro hequal
      rw [holds_strictEq_iff hequal]
      exact atMost_iff
  · rintro cs ds rfl rfl
    rw [holds_less, chars_ofChars, chars_ofChars]
    exact ⟨congrArg Text.ofChars, _, _, utf16_iff.mpr rfl, utf16_iff.mpr rfl, by
      rw [Text.units, Text.units, chars_ofChars, chars_ofChars]⟩

/-- The private-use character U+E000 is below U+1F600 by its code point and above it by its code
units. -/
theorem string_comparison_beyond_basic_plane :
    ∃ units units', Utf16 [Char.ofNat 0x1F600] units ∧ Utf16 [Char.ofNat 0xE000] units' ∧
      units < units' ∧
      Holds (Text.ofString "<") (Text.ofChars [Char.ofNat 0x1F600])
        (Text.ofChars [Char.ofNat 0xE000]) := by
  obtain ⟨-, -, -, hformed⟩ := string_comparison (Text.ofChars [Char.ofNat 0x1F600])
    (Text.ofChars [Char.ofNat 0xE000]) []
  obtain ⟨-, units, units', hunits, hunits', hiff⟩ := hformed _ _ rfl rfl
  have hless : Holds (Text.ofString "<") (Text.ofChars [Char.ofNat 0x1F600])
      (Text.ofChars [Char.ofNat 0xE000]) := by
    unfold Holds
    decide
  exact ⟨units, units', hunits, hunits', hiff.mp hless, hless⟩

/-- The strings that the literals `"\xff"` and `"\xfe"` stand for are neither equal nor is one below
the other, and yet `<=` holds between them. -/
theorem string_comparison_stray_bytes :
    (Text.ofString "\"\\xff\"").unquote? = some [0xFF] ∧
    (Text.ofString "\"\\xfe\"").unquote? = some [0xFE] ∧
    ¬ ExactlyOne (Holds (Text.ofString "<") [0xFF] [0xFE])
      (Holds (Text.ofString "===") [0xFF] [0xFE]) (Holds (Text.ofString ">") [0xFF] [0xFE]) ∧
    ¬ (Holds (Text.ofString "<=") [0xFF] [0xFE] ↔
      Holds (Text.ofString "<") [0xFF] [0xFE] ∨ Holds (Text.ofString "===") [0xFF] [0xFE]) := by
  unfold ExactlyOne Holds
  decide

end Value

end ScriptSimplifier
