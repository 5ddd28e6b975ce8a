import Mathlib.Algebra.Order.Ring.Nat
import Mathlib.Order.Monotone.Basic
import Mathlib.Tactic.Linarith
import Mathlib.Tactic.Ring
import ScriptSimplifier.Numeric.Format

/-!
# Rounding to a binary format

The codes of a format count its magnitudes in increasing order (`units_strictMono`), and
`BinaryFormat.nearestCode` picks the one that a quotient rounds to: the quotient lies between the
middles to the two neighbours, and on one of them only if the code is even (`rounds_nearestCode`).
No second code has this property (`Rounds.unique`), so it characterizes the result.  A quotient is
given by its numerator and denominator, and everything is stated without division.
-/

namespace ScriptSimplifier

namespace BinaryFormat

variable {format : BinaryFormat}

/-! ## Magnitudes -/

/-- What a code stands for: a significand and a number of zeros behind it.  The significand is
normalized unless there are no zeros, and may be the first one of the next binade. -/
theorem units_eq {shift significand : Nat}
    (hnormal : shift = 0 ∨ 2 ^ format.fractionBits ≤ significand)
    (hle : significand ≤ 2 * 2 ^ format.fractionBits) :
    format.units (shift * 2 ^ format.fractionBits + significand) = significand * 2 ^ shift := by
  have hpos : 0 < 2 ^ format.fractionBits := Nat.two_pow_pos _
  rw [units, Nat.pow_eq]
  generalize 2 ^ format.fractionBits = hidden at *
  rcases Nat.lt_or_ge significand hidden with hsmall | hlarge
  · -- below the normalized significands
    obtain rfl : shift = 0 := hnormal.resolve_right (by omega)
    simp [Nat.div_eq_of_lt hsmall, Nat.mod_eq_of_lt hsmall]
  · obtain ⟨fraction, rfl⟩ := Nat.exists_eq_add_of_le hlarge
    rcases Nat.lt_or_ge fraction hidden with hsmall | hlarge
    · have hsum : shift * hidden + (hidden + fraction) = fraction + hidden * (shift + 1) := by ring
      simp [hsum, Nat.add_mul_div_left _ _ hpos, Nat.div_eq_of_lt hsmall, Nat.mod_eq_of_lt hsmall,
        Nat.pow_eq]
    · obtain rfl : fraction = hidden := by omega
      have hsum : shift * fraction + (fraction + fraction) = fraction * (shift + 2) := by ring
      simp [hsum, Nat.mul_div_cancel_left _ hpos, Nat.pow_eq, Nat.pow_succ]
      ring

/-- Every code has a significand below the next binade. -/
theorem exists_significand (format : BinaryFormat) (code : Nat) :
    ∃ shift significand, code = shift * 2 ^ format.fractionBits + significand ∧
      (shift = 0 ∨ 2 ^ format.fractionBits ≤ significand) ∧
      significand < 2 * 2 ^ format.fractionBits := by
  have hpos : 0 < 2 ^ format.fractionBits := Nat.two_pow_pos _
  generalize 2 ^ format.fractionBits = hidden at *
  rcases Nat.lt_or_ge code hidden with hsmall | hlarge
  · exact ⟨0, code, by simp, .inl rfl, by omega⟩
  · have hquotient : 0 < code / hidden := Nat.div_pos hlarge hpos
    obtain ⟨shift, hshift⟩ := Nat.exists_eq_succ_of_ne_zero hquotient.ne'
    have hdivision := Nat.div_add_mod code hidden
    have hrest := Nat.mod_lt code hpos
    rw [hshift] at hdivision
    refine ⟨shift, hidden + code % hidden, ?_, .inr (by omega), by omega⟩
    calc code = hidden * shift.succ + code % hidden := hdivision.symm
      _ = shift * hidden + (hidden + code % hidden) := by rw [Nat.succ_eq_add_one]; ring

/-- The step to the next magnitude. -/
theorem units_succ (format : BinaryFormat) (code : Nat) :
    ∃ shift, format.units (code + 1) = format.units code + 2 ^ shift ∧
      format.units code < 2 ^ (format.fractionBits + 1) * 2 ^ shift := by
  obtain ⟨shift, significand, rfl, hnormal, hlt⟩ := format.exists_significand code
  have hunits := units_eq hnormal hlt.le
  have hnext : format.units (shift * 2 ^ format.fractionBits + (significand + 1)) =
      (significand + 1) * 2 ^ shift := units_eq (by omega) (by omega)
  refine ⟨shift, ?_, ?_⟩
  · rw [Nat.add_assoc, hnext, hunits, Nat.succ_mul]
  · rw [hunits, Nat.pow_succ, Nat.mul_comm (2 ^ format.fractionBits)]
    exact Nat.mul_lt_mul_of_pos_right hlt (Nat.two_pow_pos shift)

theorem units_strictMono (format : BinaryFormat) : StrictMono format.units := by
  refine strictMono_nat_of_lt_succ fun code => ?_
  obtain ⟨shift, hnext, _⟩ := format.units_succ code
  have := Nat.two_pow_pos shift
  omega

theorem units_zero (format : BinaryFormat) : format.units 0 = 0 := by
  simp [units]

end BinaryFormat

/-! ## Whole numbers -/

/-- The nearest whole number is the quotient or the one above it, and in the middle between two it
is even. -/
theorem roundHalfEven_cases (num den : Nat) :
    (roundHalfEven num den = num / den ∧ 2 * (num % den) ≤ den ∨
      roundHalfEven num den = num / den + 1 ∧ den ≤ 2 * (num % den)) ∧
    (2 * (num % den) = den → roundHalfEven num den % 2 = 0) := by
  rw [roundHalfEven]
  split
  · exact ⟨.inl ⟨rfl, by omega⟩, by omega⟩
  · split
    · exact ⟨.inr ⟨rfl, by omega⟩, by omega⟩
    · refine ⟨?_, by omega⟩
      rcases Nat.mod_two_eq_zero_or_one (num / den) with hmod | hmod
      · exact .inl ⟨by omega, by omega⟩
      · exact .inr ⟨by omega, by omega⟩

/-- The nearest whole number is at most half a step away. -/
theorem roundHalfEven_near (num : Nat) {den : Nat} (hden : 0 < den) :
    2 * (roundHalfEven num den * den) ≤ 2 * num + den ∧
      2 * num ≤ 2 * (roundHalfEven num den * den) + den := by
  have hdivision := Nat.div_add_mod' num den
  have hrest := Nat.mod_lt num hden
  rcases (roundHalfEven_cases num den).1 with ⟨hround, hhalf⟩ | ⟨hround, hhalf⟩
  · rw [hround]
    omega
  · have hnext : (num / den + 1) * den = num / den * den + den := Nat.succ_mul _ _
    rw [hround]
    omega

namespace BinaryFormat

variable {format : BinaryFormat}

/-! ## Codes -/

/-- A quotient rounds to a code: it lies between the middles to the neighbours, and on one of the
middles only if the code is even. -/
structure Rounds (format : BinaryFormat) (num den code : Nat) : Prop where
  low : den * (format.units (code - 1) + format.units code) ≤ 2 * num
  high : 2 * num ≤ den * (format.units code + format.units (code + 1))
  low_even : den * (format.units (code - 1) + format.units code) = 2 * num → code % 2 = 0
  high_even : 2 * num = den * (format.units code + format.units (code + 1)) → code % 2 = 0

/-- At most one code is the one that a quotient rounds to. -/
theorem Rounds.unique {num den code code' : Nat} (hden : 0 < den)
    (h : format.Rounds num den code) (h' : format.Rounds num den code') : code = code' := by
  have hlt : ∀ {a b : Nat}, format.Rounds num den a → format.Rounds num den b → ¬ a < b := by
    intro a b ha hb hab
    have hmono := format.units_strictMono
    have hfirst : format.units a ≤ format.units (b - 1) := hmono.monotone (by omega)
    have hsecond : format.units (a + 1) ≤ format.units b := hmono.monotone (by omega)
    have hchain : den * (format.units a + format.units (a + 1)) ≤
        den * (format.units (b - 1) + format.units b) :=
      Nat.mul_le_mul_left den (Nat.add_le_add hfirst hsecond)
    -- the quotient is the middle between `a` and `b`, so both are even and neighbours
    have htop : 2 * num = den * (format.units a + format.units (a + 1)) :=
      Nat.le_antisymm ha.high (hchain.trans hb.low)
    have hbottom : den * (format.units (b - 1) + format.units b) = 2 * num :=
      Nat.le_antisymm hb.low (ha.high.trans hchain)
    have hsum : format.units a + format.units (a + 1) = format.units (b - 1) + format.units b :=
      Nat.eq_of_mul_eq_mul_left hden (htop.symm.trans hbottom.symm)
    have hnext : a + 1 = b := hmono.injective (by omega)
    have haeven := ha.high_even htop
    have hbeven := hb.low_even hbottom
    omega
  exact Nat.le_antisymm (Nat.le_of_not_lt (hlt h' h)) (Nat.le_of_not_lt (hlt h h'))

/-- Rounding depends on the quotient only. -/
theorem Rounds.scale {num den num' den' code : Nat} (hden : 0 < den) (hden' : 0 < den')
    (heq : num * den' = num' * den) (h : format.Rounds num den code) :
    format.Rounds num' den' code := by
  have hscale : ∀ x, den' * (den * x) = den * (den' * x) := fun x => by ring
  have hnum : den' * (2 * num) = den * (2 * num') := by
    calc den' * (2 * num) = 2 * (num * den') := by ring
      _ = den * (2 * num') := by rw [heq]; ring
  refine ⟨?_, ?_, fun hlow => h.low_even ?_, fun hhigh => h.high_even ?_⟩
  · refine Nat.le_of_mul_le_mul_left ?_ hden
    rw [← hnum, ← hscale]
    exact Nat.mul_le_mul_left den' h.low
  · refine Nat.le_of_mul_le_mul_left ?_ hden
    rw [← hnum, ← hscale]
    exact Nat.mul_le_mul_left den' h.high
  · refine Nat.eq_of_mul_eq_mul_left hden' ?_
    rw [hscale, hlow, hnum]
  · refine Nat.eq_of_mul_eq_mul_left hden' ?_
    rw [hscale, ← hhigh, hnum]

/-- The number of zeros that rounding leaves behind the significand: as many as make the whole
part of the significand fit the format, and none that are not needed. -/
theorem shift_spec (num den : Nat) {shift : Nat}
    (hshift : shift = Nat.log2 (num / den) - format.fractionBits) :
    (shift = 0 ∨ 2 ^ format.fractionBits ≤ num / (den * 2 ^ shift)) ∧
      num / (den * 2 ^ shift) < 2 * 2 ^ format.fractionBits := by
  rw [← Nat.div_div_eq_div_mul]
  generalize num / den = quotient at *
  constructor
  · refine Nat.eq_zero_or_pos shift |>.imp_right fun hpos => ?_
    have hne : quotient ≠ 0 := by
      rintro rfl
      simp at hshift
      omega
    rw [Nat.le_div_iff_mul_le (Nat.two_pow_pos shift), ← Nat.pow_add]
    calc 2 ^ (format.fractionBits + shift) = 2 ^ quotient.log2 := by congr 1; omega
      _ ≤ quotient := Nat.log2_self_le hne
  · rw [Nat.div_lt_iff_lt_mul (Nat.two_pow_pos shift), ← Nat.pow_succ', ← Nat.pow_add]
    calc quotient < 2 ^ (quotient.log2 + 1) := Nat.lt_log2_self
      _ ≤ 2 ^ (format.fractionBits + 1 + shift) := Nat.pow_le_pow_right (by omega) (by omega)

theorem even_code (hfraction : 0 < format.fractionBits) (shift : Nat) {significand : Nat}
    (h : significand % 2 = 0) : (shift * 2 ^ format.fractionBits + significand) % 2 = 0 := by
  obtain ⟨n, hn⟩ := Nat.exists_eq_succ_of_ne_zero hfraction.ne'
  rw [hn, Nat.pow_succ, ← Nat.mul_assoc, Nat.mul_add_mod_self_right, h]

section Neighbours

variable {num den shift whole : Nat}
  (hnormal : shift = 0 ∨ 2 ^ format.fractionBits ≤ whole)
  (hlt : whole < 2 * 2 ^ format.fractionBits)

include hnormal hlt

/-- The middle between the two neighbours of a quotient. -/
theorem middle_eq (den : Nat) :
    den * (format.units (shift * 2 ^ format.fractionBits + whole) +
        format.units (shift * 2 ^ format.fractionBits + whole + 1)) =
      2 * (den * 2 ^ shift * whole) + den * 2 ^ shift := by
  have hnext : format.units (shift * 2 ^ format.fractionBits + (whole + 1)) =
      (whole + 1) * 2 ^ shift := units_eq (by omega) (by omega)
  rw [units_eq hnormal hlt.le, Nat.add_assoc, hnext]
  ring

/-- A quotient that is rounded down can only meet the middle above. -/
theorem rounds_down (hfraction : 0 < format.fractionBits) (hden : 0 < den)
    (hwhole : den * 2 ^ shift * whole ≤ num)
    (hrest : 2 * num ≤ 2 * (den * 2 ^ shift * whole) + den * 2 ^ shift)
    (heven : 2 * num = 2 * (den * 2 ^ shift * whole) + den * 2 ^ shift → whole % 2 = 0) :
    format.Rounds num den (shift * 2 ^ format.fractionBits + whole) := by
  have hmiddle := middle_eq hnormal hlt den
  have hexact : den * (2 * format.units (shift * 2 ^ format.fractionBits + whole)) =
      2 * (den * 2 ^ shift * whole) := by
    rw [units_eq hnormal hlt.le]
    ring
  have hbelow : format.units (shift * 2 ^ format.fractionBits + whole - 1) ≤
      format.units (shift * 2 ^ format.fractionBits + whole) :=
    format.units_strictMono.monotone (Nat.sub_le _ _)
  refine ⟨?_, by omega, fun hlow => ?_, fun hhigh => even_code hfraction shift (heven (by omega))⟩
  · calc _ ≤ den * (2 * format.units (shift * 2 ^ format.fractionBits + whole)) :=
          Nat.mul_le_mul_left den (by omega)
      _ ≤ 2 * num := by omega
  · -- the code below stands for the same, so there is none
    have hle : den * (2 * format.units (shift * 2 ^ format.fractionBits + whole)) ≤
        den * (format.units (shift * 2 ^ format.fractionBits + whole - 1) +
          format.units (shift * 2 ^ format.fractionBits + whole)) := by omega
    have hsame : format.units (shift * 2 ^ format.fractionBits + whole - 1) =
        format.units (shift * 2 ^ format.fractionBits + whole) := by
      have := Nat.le_of_mul_le_mul_left hle hden
      omega
    have := format.units_strictMono.injective hsame
    omega

/-- A quotient that is rounded up can only meet the middle below. -/
theorem rounds_up (hfraction : 0 < format.fractionBits)
    (hwhole : num < den * 2 ^ shift * whole + den * 2 ^ shift)
    (hrest : 2 * (den * 2 ^ shift * whole) + den * 2 ^ shift ≤ 2 * num)
    (heven : 2 * (den * 2 ^ shift * whole) + den * 2 ^ shift = 2 * num → (whole + 1) % 2 = 0) :
    format.Rounds num den (shift * 2 ^ format.fractionBits + (whole + 1)) := by
  have hmiddle := middle_eq hnormal hlt den
  have hnext : format.units (shift * 2 ^ format.fractionBits + (whole + 1)) =
      (whole + 1) * 2 ^ shift := units_eq (by omega) (by omega)
  have hexact : den * (2 * format.units (shift * 2 ^ format.fractionBits + (whole + 1))) =
      2 * (den * 2 ^ shift * whole) + 2 * (den * 2 ^ shift) := by
    rw [hnext]
    ring
  have habove : format.units (shift * 2 ^ format.fractionBits + (whole + 1)) ≤
      format.units (shift * 2 ^ format.fractionBits + (whole + 1) + 1) :=
    format.units_strictMono.monotone (Nat.le_succ _)
  have hhigh : 2 * num < den * (format.units (shift * 2 ^ format.fractionBits + (whole + 1)) +
      format.units (shift * 2 ^ format.fractionBits + (whole + 1) + 1)) := by
    calc 2 * num
        < den * (2 * format.units (shift * 2 ^ format.fractionBits + (whole + 1))) := by omega
      _ ≤ _ := Nat.mul_le_mul_left den (by omega)
  refine ⟨?_, hhigh.le, fun hlow => even_code hfraction shift (heven ?_), fun heq => by omega⟩
  · exact hmiddle.trans_le hrest
  · exact hmiddle.symm.trans hlow

end Neighbours

/-- The nearest code is the one that a quotient rounds to. -/
theorem rounds_nearestCode (hfraction : 0 < format.fractionBits) (num : Nat) {den : Nat}
    (hden : 0 < den) : format.Rounds num den (format.nearestCode num den) := by
  rw [nearestCode, Nat.pow_eq, Nat.pow_eq]
  generalize hshift : Nat.log2 (num / den) - format.fractionBits = shift
  obtain ⟨hnormal, hlt⟩ := shift_spec num den hshift.symm
  obtain ⟨hcases, heven⟩ := roundHalfEven_cases num (den * 2 ^ shift)
  have hdivision := Nat.div_add_mod num (den * 2 ^ shift)
  have hrest := Nat.mod_lt num (Nat.mul_pos hden (Nat.two_pow_pos shift))
  rcases hcases with ⟨hround, hhalf⟩ | ⟨hround, hhalf⟩
  · rw [hround] at heven ⊢
    exact rounds_down hnormal hlt hfraction hden (by omega) (by omega) (by omega)
  · rw [hround] at heven ⊢
    exact rounds_up hnormal hlt hfraction (by omega) (by omega) (by omega)

theorem Rounds.nearestCode_eq (hfraction : 0 < format.fractionBits) {num den code : Nat}
    (hden : 0 < den) (h : format.Rounds num den code) : format.nearestCode num den = code :=
  (rounds_nearestCode hfraction num hden).unique hden h

end BinaryFormat

end ScriptSimplifier
