import Mathlib.Algebra.Order.Field.Power
import Mathlib.Data.Rat.Cast.Order
import Mathlib.Tactic.FieldSimp
import ScriptSimplifier.Proofs.Numeric.Shortest

/-!
# Fewest digits

No decimal with fewer digits than the one that `Decimal.shortest` finds rounds to the same magnitude
(`shortest_least`).  The numbers that round to a code form an interval (`RoundsTo.between`).  On the
grid of each number of digits, a point of the interval on either side of the magnitude puts the
neighbour of the magnitude on that side into it (`Hits.neighbour`), and a decimal beyond the next
power of ten, above or below, puts that power of ten into it.
-/

namespace ScriptSimplifier

namespace Decimal

/-- The number that a decimal is. -/
def value (d : Decimal) : ℚ := d.digits * 10 ^ d.exponent

/-- A number lies between the middles of a code and its neighbours, and on one of the middles only
if the code is even. -/
structure RoundsTo (x : ℚ) (code : Nat) : Prop where
  low : ((binary64.units (code - 1) + binary64.units code : ℕ) : ℚ) ≤ 2 * (x * Double.one)
  high : 2 * (x * Double.one) ≤ ((binary64.units code + binary64.units (code + 1) : ℕ) : ℚ)
  low_even : ((binary64.units (code - 1) + binary64.units code : ℕ) : ℚ) =
    2 * (x * Double.one) → code % 2 = 0
  high_even : 2 * (x * Double.one) =
    ((binary64.units code + binary64.units (code + 1) : ℕ) : ℚ) → code % 2 = 0

section RoundsTo

variable {code : Nat} {x y z : ℚ}

theorem one_pos_cast : (0 : ℚ) < Double.one := Nat.cast_pos.mpr one_pos

/-- The numbers that round to a code form an interval. -/
theorem RoundsTo.between (hx : RoundsTo x code) (hz : RoundsTo z code) (hxy : x ≤ y)
    (hyz : y ≤ z) : RoundsTo y code := by
  have hone := one_pos_cast
  have hlow : x * Double.one ≤ y * Double.one := mul_le_mul_of_nonneg_right hxy hone.le
  have hhigh : y * Double.one ≤ z * Double.one := mul_le_mul_of_nonneg_right hyz hone.le
  refine ⟨?_, ?_, fun heq => hx.low_even ?_, fun heq => hz.high_even ?_⟩
  · linarith [hx.low]
  · linarith [hz.high]
  · linarith [hx.low]
  · linarith [hz.high]

/-- A magnitude rounds to its own code. -/
theorem roundsTo_self (hcode : 0 < code) :
    RoundsTo (binary64.units code / Double.one) code := by
  have hvalue : (binary64.units code / Double.one : ℚ) * Double.one = binary64.units code :=
    div_mul_cancel₀ _ one_pos_cast.ne'
  have hbelow : (binary64.units (code - 1) : ℚ) < binary64.units code :=
    Nat.cast_lt.mpr (binary64.units_strictMono (by omega))
  have habove : (binary64.units code : ℚ) < binary64.units (code + 1) :=
    Nat.cast_lt.mpr (binary64.units_strictMono (Nat.lt_succ_self code))
  refine ⟨?_, ?_, fun heq => ?_, fun heq => ?_⟩
  all_goals
    rw [hvalue] at *
    push_cast at *
    linarith

end RoundsTo

theorem value_mul (d : Decimal) :
    d.value * (10 ^ (-d.exponent).toNat : ℕ) = (d.digits * 10 ^ d.exponent.toNat : ℕ) := by
  have hten : (10 : ℚ) ≠ 0 := by norm_num
  have hexponent : d.exponent + ((-d.exponent).toNat : ℤ) = (d.exponent.toNat : ℤ) := by omega
  push_cast
  rw [value, mul_assoc, ← zpow_natCast, ← zpow_natCast, ← zpow_add₀ hten, hexponent]

/-- A decimal rounds to a code if its value does. -/
theorem rounds_iff {d : Decimal} {code : Nat} : d.Rounds code ↔ RoundsTo d.value code := by
  have hden : (0 : ℚ) < (10 ^ (-d.exponent).toNat : ℕ) :=
    Nat.cast_pos.mpr (Nat.pow_pos (by omega))
  -- both sides of the comparisons are scaled by the power of ten that makes them natural
  have hnum : ((2 * (d.digits * 10 ^ d.exponent.toNat * Double.one) : ℕ) : ℚ) =
      (10 ^ (-d.exponent).toNat : ℕ) * (2 * (d.value * Double.one)) := by
    rw [Nat.cast_mul, Nat.cast_mul, ← value_mul]
    push_cast
    ring
  have hle : ∀ n : ℕ, 10 ^ (-d.exponent).toNat * n ≤
      2 * (d.digits * 10 ^ d.exponent.toNat * Double.one) ↔
        (n : ℚ) ≤ 2 * (d.value * Double.one) := by
    intro n
    rw [← Nat.cast_le (α := ℚ), hnum, Nat.cast_mul, mul_le_mul_iff_right₀ hden]
  have hge : ∀ n : ℕ, 2 * (d.digits * 10 ^ d.exponent.toNat * Double.one) ≤
      10 ^ (-d.exponent).toNat * n ↔ 2 * (d.value * Double.one) ≤ (n : ℚ) := by
    intro n
    rw [← Nat.cast_le (α := ℚ), hnum, Nat.cast_mul, mul_le_mul_iff_right₀ hden]
  constructor
  · intro h
    refine ⟨(hle _).mp h.low, (hge _).mp h.high, fun heq => h.low_even ?_,
      fun heq => h.high_even ?_⟩
    · exact Nat.le_antisymm h.low ((hge _).mpr heq.ge)
    · exact Nat.le_antisymm h.high ((hle _).mpr heq.ge)
  · intro h
    refine ⟨(hle _).mpr h.low, (hge _).mpr h.high, fun heq => h.low_even ?_,
      fun heq => h.high_even ?_⟩
    · exact le_antisymm h.low ((hge _).mp heq.ge)
    · exact le_antisymm h.high ((hle _).mp heq.ge)

/-! ## Grids -/

/-- A multiple of a power of ten rounds to a code. -/
def Hits (code : Nat) (grid : Int) : Prop := ∃ digits : Nat, RoundsTo (digits * 10 ^ grid) code

section Grids

variable {code : Nat} {grid : Int}

/-- A decimal is compared with a magnitude through whole numbers. -/
theorem le_magnitude_iff (digits : Nat) : (digits * 10 ^ grid : ℚ) ≤
    binary64.units code / Double.one ↔
      digits * (Double.one * 10 ^ grid.toNat) ≤ binary64.units code * 10 ^ (-grid).toNat := by
  have hden : (0 : ℚ) < (10 ^ (-grid).toNat : ℕ) := Nat.cast_pos.mpr (Nat.pow_pos (by omega))
  have hvalue := value_mul ⟨digits, grid⟩
  rw [value] at hvalue
  rw [le_div_iff₀ one_pos_cast, ← mul_le_mul_iff_left₀ hden, mul_right_comm, hvalue,
    ← Nat.cast_mul, ← Nat.cast_mul, Nat.cast_le]
  rw [Nat.mul_assoc, Nat.mul_comm (10 ^ _)]

/-- The test of a search says whether a point of the grid rounds to the code. -/
theorem inside_iff {digits : Nat} :
    (if code % 2 == 0 then
        (binary64.units (code - 1) + binary64.units code) * 10 ^ (-grid).toNat ≤
            2 * (digits * (Double.one * 10 ^ grid.toNat)) &&
          2 * (digits * (Double.one * 10 ^ grid.toNat)) ≤
            (binary64.units code + binary64.units (code + 1)) * 10 ^ (-grid).toNat
      else
        (binary64.units (code - 1) + binary64.units code) * 10 ^ (-grid).toNat <
            2 * (digits * (Double.one * 10 ^ grid.toNat)) &&
          2 * (digits * (Double.one * 10 ^ grid.toNat)) <
            (binary64.units code + binary64.units (code + 1)) * 10 ^ (-grid).toNat : Bool) = true ↔
      RoundsTo (digits * 10 ^ grid) code := by
  constructor
  · intro h
    exact rounds_iff.mp (between_of_inside h).rounds
  · intro h
    obtain ⟨hlow, hhigh, hlowEven, hhighEven⟩ := (rounds_iff (d := ⟨digits, grid⟩)).mpr h
    have hvalue : digits * 10 ^ grid.toNat * Double.one =
        digits * (Double.one * 10 ^ grid.toNat) := by ring
    rw [hvalue, Nat.mul_comm (10 ^ _)] at hlow hhigh hlowEven hhighEven
    by_cases heven : code % 2 = 0
    · simp only [heven, beq_self_eq_true, if_true, Bool.and_eq_true, decide_eq_true_eq]
      exact ⟨hlow, hhigh⟩
    · simp only [beq_eq_false_iff_ne.mpr heven, Bool.false_eq_true, if_false, Bool.and_eq_true,
        decide_eq_true_eq]
      exact ⟨lt_of_le_of_ne hlow fun heq => heven (hlowEven heq),
        lt_of_le_of_ne hhigh fun heq => heven (hhighEven heq)⟩

/-- The greatest point of the grid that is not above the magnitude. -/
def pointBelow (code : Nat) (grid : Int) : Nat :=
  binary64.units code * 10 ^ (-grid).toNat / (Double.one * 10 ^ grid.toNat)

theorem step_pos (grid : Int) : 0 < Double.one * 10 ^ grid.toNat :=
  Nat.mul_pos one_pos (Nat.pow_pos (by omega))

theorem le_pointBelow_iff {digits : Nat} : digits ≤ pointBelow code grid ↔
    (digits * 10 ^ grid : ℚ) ≤ binary64.units code / Double.one := by
  rw [le_magnitude_iff, pointBelow, Nat.le_div_iff_mul_le (step_pos grid)]

/-- If any point of the grid rounds to the code, one of the two neighbours of the magnitude
does. -/
theorem Hits.neighbour (hcode : 0 < code) (h : Hits code grid) :
    RoundsTo ((pointBelow code grid : ℕ) * 10 ^ grid) code ∨
      RoundsTo ((pointBelow code grid + 1 : ℕ) * 10 ^ grid) code := by
  obtain ⟨digits, hdigits⟩ := h
  have hself := roundsTo_self hcode
  have hten : (0 : ℚ) ≤ 10 ^ grid := by positivity
  rcases Nat.lt_or_ge (pointBelow code grid) digits with habove | hbelow
  · refine .inr (hself.between hdigits ?_ ?_)
    · exact (not_le.mp fun hle => absurd (le_pointBelow_iff.mpr hle) (by omega)).le
    · exact mul_le_mul_of_nonneg_right (Nat.cast_le.mpr habove) hten
  · refine .inl (hdigits.between hself ?_ ?_)
    · exact mul_le_mul_of_nonneg_right (Nat.cast_le.mpr hbelow) hten
    · exact le_pointBelow_iff.mp (Nat.le_refl _)

/-- What a search tries on a grid. -/
def tried (code : Nat) (grid : Int) : Option Nat :=
  onGrid? (binary64.units code) (binary64.units (code - 1) + binary64.units code)
    (binary64.units code + binary64.units (code + 1)) (code % 2 == 0) grid

/-- A search misses nothing on the grids that it tries. -/
theorem tried_eq_none (hcode : 0 < code) : tried code grid = none ↔ ¬ Hits code grid := by
  constructor
  · intro h hhits
    rw [tried, onGrid?] at h
    split at h
    · cases h
    · cases h
    · cases h
    · rename_i hbelow habove
      rcases hhits.neighbour hcode with hneighbour | hneighbour
      · exact absurd (inside_iff.mpr hneighbour) (Bool.eq_false_iff.mp hbelow)
      · exact absurd (inside_iff.mpr hneighbour) (Bool.eq_false_iff.mp habove)
  · intro h
    cases hdigits : tried code grid with
    | none => rfl
    | some digits =>
      exact absurd ⟨digits, rounds_iff.mp (onGrid?_between hdigits).rounds⟩ h

end Grids

/-! ## The search -/

section Search

variable {code : Nat}

theorem pointOf_above (units : Nat) : ∃ length scale : Nat,
    pointOf units = (length : Int) - scale ∧ units * 10 ^ scale < 10 ^ length * Double.one := by
  refine ⟨decimalLength (units * Nat.pow 10 400 / Double.one), 400, rfl, ?_⟩
  generalize 400 = scale
  rw [Nat.pow_eq, ← Nat.div_lt_iff_lt_mul one_pos]
  exact lt_pow_decimalLength _

/-- A magnitude lies below the power of ten at the position of its point. -/
theorem lt_pow_pointOf (code : Nat) : (binary64.units code / Double.one : ℚ) <
    10 ^ pointOf (binary64.units code) := by
  have hten : (10 : ℚ) ≠ 0 := by norm_num
  obtain ⟨length, scale, hpoint, hlt⟩ := pointOf_above (binary64.units code)
  rw [hpoint, zpow_sub₀ hten, zpow_natCast, zpow_natCast,
    div_lt_div_iff₀ one_pos_cast (by positivity)]
  exact_mod_cast hlt

/-- The power of ten before it does not. -/
theorem pow_pointOf_le (hcode : 0 < code) : (10 ^ (pointOf (binary64.units code) - 1) : ℚ) ≤
    binary64.units code / Double.one := by
  have hten : (10 : ℚ) ≠ 0 := by norm_num
  have hunits : 0 < binary64.units code := by
    rw [← binary64.units_zero]
    exact binary64.units_strictMono hcode
  obtain ⟨length, scale, hpos, hpoint, hle⟩ := pointOf_spec hunits
  have hexponent : (length : ℤ) - scale - 1 = ((length - 1 : ℕ) : ℤ) - (scale : ℤ) := by omega
  rw [hpoint, hexponent, zpow_sub₀ hten, zpow_natCast, zpow_natCast,
    div_le_div_iff₀ (by positivity) one_pos_cast]
  exact_mod_cast hle

theorem decimalLength_le {n k : Nat} (hk : 0 < k) (h : n < 10 ^ k) : decimalLength n ≤ k :=
  (Nat.length_toDigits_le_iff (by omega) hk).mpr h

/-- On a grid of so many digits, the neighbours of a magnitude have no more of them, but for the
power of ten above. -/
theorem pointBelow_lt (code count : Nat) :
    pointBelow code (pointOf (binary64.units code) - count) < 10 ^ count := by
  refine Nat.lt_of_not_le fun hle => ?_
  have hten : (10 : ℚ) ≠ 0 := by norm_num
  have hpow := (le_pointBelow_iff.mp hle).trans_lt (lt_pow_pointOf code)
  rw [Nat.cast_pow, Nat.cast_ofNat, ← zpow_natCast, ← zpow_add₀ hten] at hpow
  exact absurd hpow (by rw [add_sub_cancel]; exact lt_irrefl _)

theorem roundHalfEven_le_succ (num den : Nat) : roundHalfEven num den ≤ num / den + 1 := by
  rcases (roundHalfEven_cases num den).1 with ⟨hround, _⟩ | ⟨hround, _⟩
  · exact hround.le.trans (Nat.le_succ _)
  · exact hround.le

theorem tried_le {grid : Int} {digits : Nat} (h : tried code grid = some digits) :
    digits ≤ pointBelow code grid + 1 := by
  rw [tried, onGrid?] at h
  split at h
  · obtain rfl := Option.some.inj h
    exact roundHalfEven_le_succ _ _
  · obtain rfl := Option.some.inj h
    exact Nat.le_succ _
  · obtain rfl := Option.some.inj h
    exact Nat.le_refl _
  · cases h

/-- Ten to the number of digits is a point of the grid of one digit. -/
theorem hits_of_pow {point : Int} (count : Nat)
    (h : RoundsTo (10 ^ count * 10 ^ (point - count)) code) : Hits code (point - 1) := by
  have hten : (10 : ℚ) ≠ 0 := by norm_num
  refine ⟨10, ?_⟩
  have hvalue : (10 : ℚ) ^ count * 10 ^ (point - count) = (10 : ℕ) * 10 ^ (point - 1) := by
    rw [Nat.cast_ofNat, ← zpow_natCast, ← zpow_add₀ hten, ← zpow_one_add₀ hten,
      add_sub_cancel, add_sub_cancel]
  rwa [hvalue] at h

/-- A search ends with no more digits than any grid needs that has a point for it. -/
theorem search_le (hcode : 0 < code) {more count k : Nat} (hsum : more + count = 18)
    (hcount : 0 < count)
    (hfirst : count = 1 ∨ ¬ Hits code (pointOf (binary64.units code) - 1)) (hk : count ≤ k)
    (hhits : Hits code (pointOf (binary64.units code) - k)) :
    decimalLength (search (binary64.units code) (binary64.units (code - 1) + binary64.units code)
      (binary64.units code + binary64.units (code + 1)) (code % 2 == 0)
      (pointOf (binary64.units code)) more count).digits ≤ k := by
  induction more generalizing count with
  | zero =>
    obtain rfl : count = 18 := by omega
    have hrounds := rounds_iff.mp (nearest_between hcode
      (show pointOf (binary64.units code) - (18 : Nat) = _ from rfl)).rounds
    have hle := (roundHalfEven_le_succ _ _).trans (pointBelow_lt code 18)
    rw [search, Nat.pow_eq, Nat.pow_eq, ← neg_sub (pointOf _)]
    generalize roundHalfEven _ _ = digits at *
    refine (decimalLength_le (by omega) (lt_of_le_of_ne hle ?_)).trans hk
    rintro rfl
    -- a power of ten would have been found with one digit
    rcases hfirst with hone | hfirst
    · omega
    · refine hfirst (hits_of_pow 18 ?_)
      rw [value] at hrounds
      exact_mod_cast hrounds
  | succ more ih =>
    rw [search]
    cases hdigits : tried code (pointOf (binary64.units code) - count) with
    | some digits =>
      rw [tried] at hdigits
      simp only [hdigits]
      have hle := (tried_le hdigits).trans (pointBelow_lt code count)
      split
      · exact (show decimalLength 1 ≤ 1 by decide).trans (by omega)
      · rename_i hne
        exact (decimalLength_le hcount (lt_of_le_of_ne hle hne)).trans hk
    | none =>
      have hmiss := (tried_eq_none hcode).mp hdigits
      rw [tried] at hdigits
      simp only [hdigits]
      have hne : count ≠ k := by
        rintro rfl
        exact hmiss hhits
      refine ih (by omega) (by omega) (.inr ?_) (by omega)
      rcases hfirst with rfl | hfirst
      · exact hmiss
      · exact hfirst

end Search

/-- No decimal with fewer digits than the shortest one rounds to the same magnitude. -/
theorem shortest_least {code : Magnitude} (hcode : 0 < code.val) {d : Decimal}
    (h : d.Rounds code.val) :
    decimalLength (shortest code).digits ≤ decimalLength d.digits := by
  have hten : (1 : ℚ) ≤ 10 := by norm_num
  have hne : (10 : ℚ) ≠ 0 := by norm_num
  have hlength := decimalLength_pos d.digits
  have hself := roundsTo_self hcode
  have hvalue := rounds_iff.mp h
  have hfewest : ∀ {k : Nat}, 0 < k → Hits code.val (pointOf (binary64.units code.val) - k) →
      decimalLength (shortest code).digits ≤ k :=
    fun hk hhits => search_le hcode (show 17 + 1 = 18 from rfl) Nat.one_pos (.inl rfl) hk hhits
  have hbelow := lt_pow_pointOf code.val
  have habove := pow_pointOf_le hcode
  generalize pointOf (binary64.units code.val) = point at *
  -- a point of the grid of one digit is enough if the decimal has another position of the point
  have hone : Hits code.val (point - 1) →
      decimalLength (shortest code).digits ≤ decimalLength d.digits :=
    fun hhits => (hfewest Nat.one_pos hhits).trans hlength
  have hscale : (0 : ℚ) < 10 ^ d.exponent := by positivity
  rcases lt_trichotomy (d.exponent + decimalLength d.digits) point with hlt | heq | hgt
  · refine hone ⟨1, ?_⟩
    rw [Nat.cast_one, one_mul]
    refine hvalue.between hself ?_ habove
    have hdigits : (d.digits : ℚ) ≤ 10 ^ (decimalLength d.digits : ℤ) := by
      exact_mod_cast (lt_pow_decimalLength d.digits).le
    calc d.value ≤ 10 ^ (decimalLength d.digits : ℤ) * 10 ^ d.exponent :=
          mul_le_mul_of_nonneg_right hdigits hscale.le
      _ = 10 ^ (decimalLength d.digits + d.exponent) := (zpow_add₀ hne _ _).symm
      _ ≤ 10 ^ (point - 1) := zpow_le_zpow_right₀ hten (by omega)
  · refine hfewest hlength ⟨d.digits, ?_⟩
    rwa [← heq, add_sub_cancel_right]
  · refine hone (hits_of_pow 0 ?_)
    rw [pow_zero, one_mul, Nat.cast_zero, sub_zero]
    refine hself.between hvalue hbelow.le ?_
    have hdigits : (10 : ℚ) ^ ((decimalLength d.digits - 1 : ℕ) : ℤ) ≤ d.digits := by
      exact_mod_cast pow_decimalLength_le (h.digits_pos hcode)
    calc (10 : ℚ) ^ point ≤ 10 ^ (((decimalLength d.digits - 1 : ℕ) : ℤ) + d.exponent) :=
          zpow_le_zpow_right₀ hten (by omega)
      _ = 10 ^ ((decimalLength d.digits - 1 : ℕ) : ℤ) * 10 ^ d.exponent := zpow_add₀ hne _ _
      _ ≤ d.value := mul_le_mul_of_nonneg_right hdigits hscale.le

end Decimal

end ScriptSimplifier
