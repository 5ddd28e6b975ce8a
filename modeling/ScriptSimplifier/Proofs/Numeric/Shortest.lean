import Mathlib.Tactic.GCongr
import Mathlib.Tactic.NormNum
import Mathlib.Tactic.Positivity
import ScriptSimplifier.Numeric.Decimal
import ScriptSimplifier.Proofs.Numeric.Rounding

/-!
# Shortest decimals

The decimal that `Decimal.shortest` finds for a magnitude rounds to the magnitude
(`shortest_rounds`), and `Decimal.toDouble` gives the magnitude back for every decimal that does
(`toDouble_of_rounds`): such a decimal is neither zero nor so large or small that its power of ten
is not formed.  The search ends at the latest with eighteen digits, since the distance between two
decimals of so many digits is less than the distance between any two neighbouring magnitudes.
-/

namespace ScriptSimplifier

namespace Decimal

theorem fractionBits_pos : 0 < binary64.fractionBits := by decide

/-- A decimal rounds to a code. -/
def Rounds (d : Decimal) (code : Nat) : Prop :=
  binary64.Rounds (d.digits * 10 ^ d.exponent.toNat * Double.one) (10 ^ (-d.exponent).toNat) code

/-- Rounding depends on the value of a decimal only. -/
theorem Rounds.congr {d d' : Decimal} {code : Nat} (h : d.Rounds code)
    (heq : d.digits * 10 ^ d.exponent.toNat * 10 ^ (-d'.exponent).toNat =
      d'.digits * 10 ^ d'.exponent.toNat * 10 ^ (-d.exponent).toNat) : d'.Rounds code := by
  refine BinaryFormat.Rounds.scale (Nat.pow_pos (by omega)) (Nat.pow_pos (by omega)) ?_ h
  rw [Nat.mul_right_comm, heq, Nat.mul_right_comm]

/-! ## Powers of ten -/

theorem one_pos : 0 < Double.one := by
  unfold Double.one
  generalize binary64.unitExponent = n
  exact Nat.two_pow_pos n

theorem decimalLength_pos (n : Nat) : 0 < decimalLength n := Nat.length_toDigits_pos

theorem lt_pow_decimalLength (n : Nat) : n < 10 ^ decimalLength n :=
  (Nat.length_toDigits_le_iff (by omega) (decimalLength_pos n)).mp (Nat.le_refl _)

theorem pow_decimalLength_le {n : Nat} (h : 0 < n) : 10 ^ (decimalLength n - 1) ≤ n := by
  rcases Nat.eq_zero_or_pos (decimalLength n - 1) with hzero | hpos
  · rw [hzero]
    omega
  · refine Nat.le_of_not_lt fun hlt => ?_
    have hle : decimalLength n ≤ decimalLength n - 1 :=
      (Nat.length_toDigits_le_iff (by omega) hpos).mpr hlt
    omega

/-- The power of ten below the position of the decimal point is not above the magnitude. -/
theorem pointOf_spec {units : Nat} (hunits : 0 < units) : ∃ length scale : Nat, 0 < length ∧
    pointOf units = (length : Int) - scale ∧
    10 ^ (length - 1) * Double.one ≤ units * 10 ^ scale := by
  refine ⟨decimalLength (units * Nat.pow 10 400 / Double.one), 400, decimalLength_pos _, rfl, ?_⟩
  have hlarge : Double.one ≤ 10 ^ 400 := by decide +kernel
  generalize 400 = scale at *
  rw [Nat.pow_eq]
  have hquotient : 0 < units * 10 ^ scale / Double.one :=
    Nat.div_pos (hlarge.trans (Nat.le_mul_of_pos_left _ hunits)) one_pos
  exact (Nat.le_div_iff_mul_le one_pos).mp (pow_decimalLength_le hquotient)

/-! ## The search -/

section Search

variable {code : Nat} {grid : Int}

/-- A number of steps lies between two ends, and strictly between them unless the ends belong
to the interval. -/
structure Between (low high up step : Nat) (closed : Bool) (digits : Nat) : Prop where
  lower : low * up ≤ 2 * (digits * step)
  upper : 2 * (digits * step) ≤ high * up
  strict : closed = false → low * up < 2 * (digits * step) ∧ 2 * (digits * step) < high * up

/-- What lies between the middles rounds to the code. -/
theorem Between.rounds {digits : Nat}
    (h : Between (binary64.units (code - 1) + binary64.units code)
      (binary64.units code + binary64.units (code + 1)) (10 ^ (-grid).toNat)
      (Double.one * 10 ^ grid.toNat) (code % 2 == 0) digits) :
    (⟨digits, grid⟩ : Decimal).Rounds code := by
  have hvalue : digits * 10 ^ grid.toNat * Double.one =
      digits * (Double.one * 10 ^ grid.toNat) := by ring
  have hstrict := h.strict
  rw [beq_eq_false_iff_ne] at hstrict
  rw [Rounds, hvalue]
  refine ⟨?_, ?_, fun hlow => ?_, fun hhigh => ?_⟩
  · rw [Nat.mul_comm]
    exact h.lower
  · rw [Nat.mul_comm (10 ^ _)]
    exact h.upper
  · by_contra hodd
    rw [Nat.mul_comm (10 ^ _)] at hlow
    exact absurd hlow (hstrict hodd).1.ne
  · by_contra hodd
    rw [Nat.mul_comm (10 ^ _)] at hhigh
    exact absurd hhigh (hstrict hodd).2.ne

theorem between_of_inside {low high up step digits : Nat} {closed : Bool}
    (h : (if closed then low * up ≤ 2 * (digits * step) && 2 * (digits * step) ≤ high * up
      else low * up < 2 * (digits * step) && 2 * (digits * step) < high * up : Bool) = true) :
    Between low high up step closed digits := by
  cases closed
  · simp only [Bool.false_eq_true, if_false, Bool.and_eq_true, decide_eq_true_eq] at h
    exact ⟨h.1.le, h.2.le, fun _ => h⟩
  · simp only [if_true, Bool.and_eq_true, decide_eq_true_eq] at h
    exact ⟨h.1, h.2, by simp⟩

/-- What stands for a magnitude on a grid lies between the two ends. -/
theorem onGrid?_between {units low high digits : Nat} {closed : Bool}
    (h : onGrid? units low high closed grid = some digits) :
    Between low high (10 ^ (-grid).toNat) (Double.one * 10 ^ grid.toNat) closed digits := by
  rw [onGrid?] at h
  split at h
  · rename_i hbelow habove
    obtain rfl := Option.some.inj h
    rcases (roundHalfEven_cases (units * Nat.pow 10 (-grid).toNat)
      (Double.one * Nat.pow 10 grid.toNat)).1 with ⟨hround, _⟩ | ⟨hround, _⟩
    · rw [hround]
      exact between_of_inside hbelow
    · rw [hround]
      exact between_of_inside habove
  · rename_i hbelow _
    obtain rfl := Option.some.inj h
    exact between_of_inside hbelow
  · rename_i _ habove
    obtain rfl := Option.some.inj h
    exact between_of_inside habove
  · cases h

/-- The step between two decimals of eighteen digits is small against the magnitude. -/
theorem step_le {units : Nat} (hunits : 0 < units) :
    Double.one * 10 ^ (pointOf units - 18).toNat * 10 ^ 17 ≤
      units * 10 ^ (-(pointOf units - 18)).toNat := by
  obtain ⟨length, scale, hpos, hpoint, hlength⟩ := pointOf_spec hunits
  have hexponent : (pointOf units - 18).toNat + 17 + scale =
      length - 1 + (-(pointOf units - 18)).toNat := by omega
  generalize (pointOf units - 18).toNat = up at *
  generalize (-(pointOf units - 18)).toNat = down at *
  refine Nat.le_of_mul_le_mul_right ?_ (show 0 < 10 ^ scale from Nat.pow_pos (by omega))
  calc Double.one * 10 ^ up * 10 ^ 17 * 10 ^ scale
      = 10 ^ (up + 17 + scale) * Double.one := by rw [Nat.pow_add, Nat.pow_add]; ring
    _ = 10 ^ (length - 1) * Double.one * 10 ^ down := by rw [hexponent, Nat.pow_add]; ring
    _ ≤ units * 10 ^ scale * 10 ^ down := Nat.mul_le_mul_right _ hlength
    _ = units * 10 ^ down * 10 ^ scale := by ring

/-- Neighbours are no closer than the magnitude allows. -/
theorem gap_spec (code : Nat) : ∃ gap, binary64.units (code + 1) = binary64.units code + gap ∧
    binary64.units (code + 1) ≤ gap * (2 ^ 53 + 1) := by
  obtain ⟨shift, hnext, hlt⟩ := binary64.units_succ code
  refine ⟨2 ^ shift, hnext, ?_⟩
  have hbits : binary64.fractionBits + 1 = 53 := rfl
  rw [hbits] at hlt
  rw [hnext, Nat.mul_succ, Nat.mul_comm]
  omega

/-- A step that is small against the magnitude is smaller than any gap to a neighbour. -/
theorem step_lt_gap {units up step gap : Nat} (hstep : 0 < step)
    (hsmall : step * 10 ^ 17 ≤ units * up) (hgap : units ≤ gap * (2 ^ 53 + 1)) :
    step < gap * up := by
  refine Nat.lt_of_not_le fun hle => ?_
  have hchain : step * 10 ^ 17 ≤ step * (2 ^ 53 + 1) := by
    calc step * 10 ^ 17 ≤ units * up := hsmall
      _ ≤ gap * (2 ^ 53 + 1) * up := Nat.mul_le_mul_right up hgap
      _ = gap * up * (2 ^ 53 + 1) := by ring
      _ ≤ step * (2 ^ 53 + 1) := Nat.mul_le_mul_right _ hle
  have := Nat.le_of_mul_le_mul_left hchain hstep
  norm_num at this

/-- With eighteen digits the nearest decimal is good enough. -/
theorem nearest_between (hcode : 0 < code) (hgrid : grid = pointOf (binary64.units code) - 18) :
    Between (binary64.units (code - 1) + binary64.units code)
      (binary64.units code + binary64.units (code + 1)) (10 ^ (-grid).toNat)
      (Double.one * 10 ^ grid.toNat) (code % 2 == 0)
      (roundHalfEven (binary64.units code * 10 ^ (-grid).toNat)
        (Double.one * 10 ^ grid.toNat)) := by
  obtain ⟨before, rfl⟩ : ∃ before, code = before + 1 := Nat.exists_eq_succ_of_ne_zero hcode.ne'
  have hunits : 0 < binary64.units (before + 1) := by
    rw [← binary64.units_zero]
    exact binary64.units_strictMono (Nat.succ_pos before)
  have hsmall := step_le hunits
  have hstep : 0 < Double.one * 10 ^ grid.toNat :=
    Nat.mul_pos one_pos (Nat.pow_pos (by omega))
  rw [← hgrid] at hsmall
  -- the distance to either neighbour is more than a step of the grid
  obtain ⟨below, hbelow, hbelow'⟩ := gap_spec before
  obtain ⟨above, habove, habove'⟩ := gap_spec (before + 1)
  have hlow := step_lt_gap hstep hsmall hbelow'
  have hhigh := step_lt_gap hstep hsmall
    ((binary64.units_strictMono.monotone (Nat.le_succ _)).trans habove')
  obtain ⟨hdown, hup⟩ := roundHalfEven_near (binary64.units (before + 1) * 10 ^ (-grid).toNat) hstep
  have hlower : (binary64.units before + binary64.units (before + 1)) * 10 ^ (-grid).toNat +
      below * 10 ^ (-grid).toNat = 2 * (binary64.units (before + 1) * 10 ^ (-grid).toNat) := by
    rw [hbelow]
    ring
  have hupper : (binary64.units (before + 1) + binary64.units (before + 1 + 1)) *
      10 ^ (-grid).toNat = 2 * (binary64.units (before + 1) * 10 ^ (-grid).toNat) +
        above * 10 ^ (-grid).toNat := by
    rw [habove]
    ring
  rw [Nat.add_sub_cancel]
  exact ⟨by omega, by omega, fun _ => ⟨by omega, by omega⟩⟩

/-- Every decimal that the search may end with rounds to the code. -/
theorem search_rounds (hcode : 0 < code) (more count : Nat) (hcount : more + count = 18) :
    (search (binary64.units code) (binary64.units (code - 1) + binary64.units code)
      (binary64.units code + binary64.units (code + 1)) (code % 2 == 0)
      (pointOf (binary64.units code)) more count).Rounds code := by
  induction more generalizing count with
  | zero =>
    obtain rfl : count = 18 := by omega
    have h := (nearest_between hcode rfl).rounds
    rw [search, Nat.pow_eq, Nat.pow_eq]
    have hnegated : ((18 : Nat) : Int) - pointOf (binary64.units code) =
        -(pointOf (binary64.units code) - 18) := by omega
    rw [hnegated]
    exact h
  | succ more ih =>
    rw [search]
    split
    · rename_i digits hdigits
      have h := (onGrid?_between hdigits).rounds
      split
      · rename_i heq
        refine h.congr ?_
        -- ten to the number of digits, as a single digit
        have hexponent : count + (pointOf (binary64.units code) - count).toNat +
            (-pointOf (binary64.units code)).toNat = (pointOf (binary64.units code)).toNat +
              (-(pointOf (binary64.units code) - count)).toNat := by omega
        rw [heq, Nat.pow_eq]
        simp only [← Nat.pow_add, Nat.one_mul, hexponent]
      · exact h
    · exact ih (count + 1) (by omega)

end Search

/-- The shortest decimal of a magnitude rounds to it. -/
theorem shortest_rounds {code : Magnitude} (hcode : 0 < code.val) :
    (shortest code).Rounds code.val :=
  search_rounds hcode 17 1 rfl

/-! ## Reading -/

/-- A decimal that rounds to a code other than that of zero has digits. -/
theorem Rounds.digits_pos {d : Decimal} {code : Nat} (hcode : 0 < code) (h : d.Rounds code) :
    0 < d.digits := by
  refine Nat.pos_of_ne_zero fun hzero => ?_
  have hunits : 0 < binary64.units code := by
    rw [← binary64.units_zero]
    exact binary64.units_strictMono hcode
  have hlow := h.low
  rw [hzero, Nat.zero_mul, Nat.zero_mul] at hlow
  have hprod : 0 < 10 ^ (-d.exponent).toNat * (binary64.units (code - 1) + binary64.units code) :=
    Nat.mul_pos (Nat.pow_pos (by omega)) (by omega)
  omega

/-- A decimal that rounds to a finite magnitude is not too large. -/
theorem Rounds.point_le {d : Decimal} {code : Magnitude} (hcode : 0 < code.val)
    (h : d.Rounds code.val) : d.exponent + decimalLength d.digits ≤ 310 := by
  obtain ⟨most, hmost, hbound⟩ : ∃ most : Nat, most = 310 ∧
      ¬ 10 ^ most * Double.one ≤ binary64.units 0x7FF0000000000000 :=
    ⟨_, rfl, by decide +kernel⟩
  have hlength := pow_decimalLength_le (h.digits_pos hcode)
  have hlengthPos := decimalLength_pos d.digits
  have hmono := binary64.units_strictMono.monotone
  have hunits : binary64.units code.val ≤ binary64.units 0x7FF0000000000000 :=
    hmono code.isLt.le
  have hnext : binary64.units (code.val + 1) ≤ binary64.units 0x7FF0000000000000 :=
    hmono code.isLt
  have hhigh := h.high
  generalize binary64.units 0x7FF0000000000000 = largest at *
  generalize Double.one = one at *
  -- with its point further right, the decimal would be above all finite magnitudes
  refine Int.not_lt.mp fun hlt => hbound ?_
  have hexponents : most + (-d.exponent).toNat ≤ decimalLength d.digits - 1 + d.exponent.toNat := by
    omega
  refine Nat.le_of_mul_le_mul_left ?_ (show 0 < 2 * 10 ^ (-d.exponent).toNat by positivity)
  calc 2 * 10 ^ (-d.exponent).toNat * (10 ^ most * one)
      = 2 * (10 ^ (most + (-d.exponent).toNat) * one) := by rw [Nat.pow_add]; ring
    _ ≤ 2 * (10 ^ (decimalLength d.digits - 1 + d.exponent.toNat) * one) := by
        gcongr
        omega
    _ = 2 * (10 ^ (decimalLength d.digits - 1) * 10 ^ d.exponent.toNat * one) := by
        rw [Nat.pow_add]
    _ ≤ 2 * (d.digits * 10 ^ d.exponent.toNat * one) := by gcongr
    _ ≤ 10 ^ (-d.exponent).toNat *
          (binary64.units code.val + binary64.units (code.val + 1)) := hhigh
    _ ≤ 10 ^ (-d.exponent).toNat * (largest + largest) := by gcongr
    _ = 2 * 10 ^ (-d.exponent).toNat * largest := by ring

/-- A decimal that rounds to a magnitude other than zero is not too small. -/
theorem Rounds.le_point {d : Decimal} {code : Nat} (hcode : 0 < code) (h : d.Rounds code) :
    -330 ≤ d.exponent + decimalLength d.digits := by
  obtain ⟨most, hmost, hbound⟩ : ∃ most : Nat, most = 330 ∧ 2 * Double.one ≤ 10 ^ most :=
    ⟨_, rfl, by decide +kernel⟩
  have hpos := one_pos
  have hlength := lt_pow_decimalLength d.digits
  have hunits : 0 < binary64.units code := by
    rw [← binary64.units_zero]
    exact binary64.units_strictMono hcode
  have hlow := h.low
  generalize Double.one = one at *
  refine Int.not_lt.mp fun hlt => ?_
  have hexponent : d.exponent.toNat = 0 := by omega
  have hexponents : decimalLength d.digits + most ≤ (-d.exponent).toNat := by omega
  rw [hexponent, Nat.pow_zero, Nat.mul_one] at hlow
  refine absurd (show 10 ^ (-d.exponent).toNat < 10 ^ (-d.exponent).toNat from ?_) (Nat.lt_irrefl _)
  calc 10 ^ (-d.exponent).toNat
      ≤ 10 ^ (-d.exponent).toNat * (binary64.units (code - 1) + binary64.units code) :=
        Nat.le_mul_of_pos_right _ (by omega)
    _ ≤ d.digits * (2 * one) := by rw [Nat.mul_left_comm]; exact hlow
    _ < 10 ^ decimalLength d.digits * (2 * one) :=
        Nat.mul_lt_mul_of_pos_right hlength (Nat.mul_pos (by omega) hpos)
    _ ≤ 10 ^ decimalLength d.digits * 10 ^ most := by gcongr
    _ = 10 ^ (decimalLength d.digits + most) := by rw [Nat.pow_add]
    _ ≤ 10 ^ (-d.exponent).toNat := Nat.pow_le_pow_right (by omega) hexponents

/-- A decimal gives the magnitude that it rounds to. -/
theorem toDouble_of_rounds {d : Decimal} {code : Magnitude} (hcode : 0 < code.val)
    (h : d.Rounds code.val) (negative : Bool) : d.toDouble negative = .finite negative code := by
  have hlow := h.le_point hcode
  have hhigh := h.point_le hcode
  have hpos := h.digits_pos hcode
  have hnearest : binary64.nearestCode (d.digits * 10 ^ d.exponent.toNat * Double.one)
      (10 ^ (-d.exponent).toNat) = code.val :=
    BinaryFormat.Rounds.nearestCode_eq fractionBits_pos (Nat.pow_pos (by omega)) h
  rw [toDouble, if_neg (by omega), if_neg (by omega), if_neg (by omega), Double.ofRatio,
    Double.ofUnits]
  simp only [Nat.pow_eq, hnearest, code.isLt, dif_pos]

end Decimal

end ScriptSimplifier
