import Mathlib.Algebra.Order.Ring.Abs
import ScriptSimplifier.Proofs.Numeric.Fewest

/-!
# Nearest doubles

`Double.NearestTo` says which double a natural number is rounded to, by distances: no finite
magnitude is nearer, of two at the same distance the one with the even code is taken, and infinity
stands from half a step beyond the largest magnitude on.  `Double.ofNat` is that double
(`nearestTo_iff`).  Rounding commutes with multiplication by a power of two (`Rounds.mul_two_pow`)
and changes no number whose significand fits the format (`units_nearestCode`).
-/

namespace ScriptSimplifier

namespace BinaryFormat

variable {format : BinaryFormat} {num den code : Nat}

/-! ## Powers of two -/

/-- Beyond the first binade, so many codes further is so many times two. -/
theorem units_add_mul (format : BinaryFormat) (hcode : 2 ^ format.fractionBits ≤ code) (k : Nat) :
    format.units (code + k * 2 ^ format.fractionBits) = format.units code * 2 ^ k := by
  obtain ⟨shift, significand, rfl, hnormal, hlt⟩ := format.exists_significand code
  have hnormal' : 2 ^ format.fractionBits ≤ significand := by
    rcases hnormal with rfl | h
    · simpa using hcode
    · exact h
  have hcodes : shift * 2 ^ format.fractionBits + significand + k * 2 ^ format.fractionBits =
      (shift + k) * 2 ^ format.fractionBits + significand := by ring
  rw [hcodes, units_eq (.inr hnormal') hlt.le, units_eq (.inr hnormal') hlt.le, Nat.pow_add,
    Nat.mul_assoc]

/-- Rounding commutes with multiplication by a power of two. -/
theorem Rounds.mul_two_pow (hfraction : 0 < format.fractionBits)
    (hcode : 2 ^ format.fractionBits < code) (h : format.Rounds num den code) (k : Nat) :
    format.Rounds (num * 2 ^ k) den (code + k * 2 ^ format.fractionBits) := by
  have hpow : 0 < 2 ^ k := Nat.two_pow_pos k
  have hfirst : 0 < 2 ^ format.fractionBits := Nat.two_pow_pos _
  -- the codes next to it are normal too, so all three magnitudes are scaled alike
  have hbelow : format.units (code + k * 2 ^ format.fractionBits - 1) =
      format.units (code - 1) * 2 ^ k := by
    rw [← format.units_add_mul (by omega)]
    congr 1
    omega
  have habove : format.units (code + k * 2 ^ format.fractionBits + 1) =
      format.units (code + 1) * 2 ^ k := by
    rw [← format.units_add_mul (by omega)]
    congr 1
    omega
  have heven : code % 2 = 0 → (code + k * 2 ^ format.fractionBits) % 2 = 0 := by
    intro h
    rw [Nat.add_comm]
    exact even_code hfraction k h
  have hlow : den * (format.units (code + k * 2 ^ format.fractionBits - 1) +
      format.units (code + k * 2 ^ format.fractionBits)) =
        den * (format.units (code - 1) + format.units code) * 2 ^ k := by
    rw [hbelow, format.units_add_mul hcode.le]
    ring
  have hhigh : den * (format.units (code + k * 2 ^ format.fractionBits) +
      format.units (code + k * 2 ^ format.fractionBits + 1)) =
        den * (format.units code + format.units (code + 1)) * 2 ^ k := by
    rw [habove, format.units_add_mul hcode.le]
    ring
  have hnum : 2 * (num * 2 ^ k) = 2 * num * 2 ^ k := by ring
  refine ⟨?_, ?_, fun heq => heven (h.low_even ?_), fun heq => heven (h.high_even ?_)⟩
  · rw [hlow, hnum]
    exact Nat.mul_le_mul_right _ h.low
  · rw [hhigh, hnum]
    exact Nat.mul_le_mul_right _ h.high
  · rw [hlow, hnum] at heq
    exact Nat.eq_of_mul_eq_mul_right hpow heq
  · rw [hhigh, hnum] at heq
    exact Nat.eq_of_mul_eq_mul_right hpow heq

/-- At or above so many times the first normalized significand, every magnitude is a multiple of the
power of two. -/
theorem two_pow_dvd_units (format : BinaryFormat) {k : Nat}
    (h : 2 ^ format.fractionBits * 2 ^ k ≤ format.units code) : 2 ^ k ∣ format.units code := by
  obtain ⟨shift, significand, rfl, hnormal, hlt⟩ := format.exists_significand code
  rw [units_eq hnormal hlt.le] at h ⊢
  have hpow : 2 ^ (format.fractionBits + k) < 2 ^ (format.fractionBits + 1 + shift) := by
    calc 2 ^ (format.fractionBits + k) = 2 ^ format.fractionBits * 2 ^ k := Nat.pow_add ..
      _ ≤ significand * 2 ^ shift := h
      _ < 2 * 2 ^ format.fractionBits * 2 ^ shift :=
        Nat.mul_lt_mul_of_pos_right hlt (Nat.two_pow_pos shift)
      _ = 2 ^ (format.fractionBits + 1 + shift) := by rw [Nat.pow_add, Nat.pow_succ']
  have hle := (Nat.pow_lt_pow_iff_right (by omega)).mp hpow
  exact Dvd.dvd.mul_left (Nat.pow_dvd_pow 2 (by omega)) _

/-! ## Numbers that are kept -/

/-- What a quotient rounds to is not below a magnitude that is not above the quotient. -/
theorem Rounds.le_code {other : Nat} (h : format.Rounds num den code)
    (hother : den * format.units other ≤ num) (hden : 0 < den) : other ≤ code := by
  refine Nat.le_of_not_lt fun hlt => ?_
  have hmono := format.units_strictMono
  have hfirst : format.units code < format.units other := hmono hlt
  have hsecond : format.units (code + 1) ≤ format.units other := hmono.monotone hlt
  have hlt' : den * (format.units code + format.units (code + 1)) <
      den * (2 * format.units other) := Nat.mul_lt_mul_of_pos_left (by omega) hden
  have hhigh := h.high
  have hdouble : den * (2 * format.units other) = 2 * (den * format.units other) := by ring
  omega

/-- A quotient that is not below a magnitude, and nearer to it than to the next one, rounds to
it. -/
theorem rounds_of_near (hden : 0 < den) (hlow : den * format.units code ≤ num)
    (hhigh : 2 * num < den * (format.units code + format.units (code + 1))) :
    format.Rounds num den code := by
  have hmono : format.units (code - 1) ≤ format.units code :=
    format.units_strictMono.monotone (Nat.sub_le _ _)
  have hle : den * (format.units (code - 1) + format.units code) ≤ 2 * num := by
    calc den * (format.units (code - 1) + format.units code)
        ≤ den * (2 * format.units code) := Nat.mul_le_mul_left den (by omega)
      _ = 2 * (den * format.units code) := by ring
      _ ≤ 2 * num := Nat.mul_le_mul_left 2 hlow
  refine ⟨hle, hhigh.le, fun heq => ?_, fun heq => absurd heq hhigh.ne⟩
  -- the code below stands for the same, so there is none
  have hsame : den * (2 * format.units code) ≤
      den * (format.units (code - 1) + format.units code) := by
    calc den * (2 * format.units code) = 2 * (den * format.units code) := by ring
      _ ≤ 2 * num := Nat.mul_le_mul_left 2 hlow
      _ = _ := heq.symm
  have hunits : format.units (code - 1) = format.units code := by
    have := Nat.le_of_mul_le_mul_left hsame hden
    omega
  have := format.units_strictMono.injective hunits
  omega

/-- A magnitude rounds to itself. -/
theorem rounds_units (format : BinaryFormat) (hden : 0 < den) (code : Nat) :
    format.Rounds (den * format.units code) den code := by
  refine rounds_of_near hden (Nat.le_refl _) ?_
  have hnext : format.units code < format.units (code + 1) :=
    format.units_strictMono (Nat.lt_succ_self code)
  rw [Nat.mul_left_comm]
  exact Nat.mul_lt_mul_of_pos_left (by omega) hden

/-- A number is a magnitude if its significand fits the format. -/
theorem exists_units (format : BinaryFormat) {significand : Nat}
    (h : significand < 2 ^ (format.fractionBits + 1)) (k : Nat) :
    ∃ code, format.units code = significand * 2 ^ k := by
  rcases Nat.eq_zero_or_pos significand with rfl | hpos
  · exact ⟨0, by rw [units_zero, Nat.zero_mul]⟩
  · have hlog : significand.log2 ≤ format.fractionBits :=
      Nat.lt_succ_iff.mp ((Nat.log2_lt hpos.ne').mpr h)
    have htop := Nat.lt_log2_self (n := significand)
    have hbottom := Nat.log2_self_le hpos.ne'
    -- the significand is moved up as far as the format and the zeros behind it allow
    generalize hroom : min (format.fractionBits - significand.log2) k = room
    refine ⟨(k - room) * 2 ^ format.fractionBits + significand * 2 ^ room, ?_⟩
    rw [units_eq, Nat.mul_assoc, ← Nat.pow_add]
    · congr 2
      omega
    · rcases Nat.lt_or_ge (format.fractionBits - significand.log2) k with hlt | hge
      · right
        calc 2 ^ format.fractionBits = 2 ^ significand.log2 * 2 ^ room := by
              rw [← Nat.pow_add]
              congr 1
              omega
          _ ≤ significand * 2 ^ room := Nat.mul_le_mul_right _ hbottom
      · left
        omega
    · calc significand * 2 ^ room ≤ 2 ^ (significand.log2 + 1) * 2 ^ room :=
            Nat.mul_le_mul_right _ htop.le
        _ ≤ 2 ^ (format.fractionBits + 1) := by
            rw [← Nat.pow_add]
            exact Nat.pow_le_pow_right (by omega) (by omega)
        _ = 2 * 2 ^ format.fractionBits := Nat.pow_succ'

/-- Rounding changes no number whose significand fits the format. -/
theorem units_nearestCode (format : BinaryFormat) (hfraction : 0 < format.fractionBits)
    {significand : Nat} (h : significand < 2 ^ (format.fractionBits + 1)) (k : Nat) :
    format.units (format.nearestCode (significand * 2 ^ k) 1) = significand * 2 ^ k := by
  obtain ⟨code, hcode⟩ := format.exists_units h k
  have hrounds : format.Rounds (1 * format.units code) 1 code :=
    format.rounds_units Nat.one_pos code
  rw [Nat.one_mul] at hrounds
  rw [← hcode, hrounds.nearestCode_eq hfraction Nat.one_pos]

end BinaryFormat

namespace Double

/-! ## Distances -/

/-- What a magnitude stands for. -/
def size (code : Nat) : ℚ := binary64.units code / one

/-- Half a step beyond the largest magnitude. -/
def overflow : ℕ := 2 ^ 1024 - 2 ^ 970

/-- The double that a natural number is rounded to. -/
inductive NearestTo (n : ℕ) : Double → Prop
  /-- No magnitude is nearer, and one at the same distance only if the code is even. -/
  | finite {code : Magnitude} :
      (∀ other : Magnitude, |size code - n| ≤ |size other - n|) →
      (∀ other : Magnitude, other ≠ code → |size code - n| = |size other - n| →
        code.val % 2 = 0) →
      n < overflow → NearestTo n (.finite false code)
  /-- The number is beyond all magnitudes. -/
  | inf : overflow ≤ n → NearestTo n (.inf false)

theorem overflow_units : binary64.units (0x7FF0000000000000 - 1) +
    binary64.units 0x7FF0000000000000 = 2 * (overflow * one) := by
  decide +kernel

/-- The distance between a magnitude and a natural number, in units. -/
def distance (code n : ℕ) : ℕ := ((binary64.units code : ℤ) - (n * one : ℕ)).natAbs

theorem abs_size_sub (code n : ℕ) : |size code - n| = distance code n / (one : ℚ) := by
  have hone : (0 : ℚ) < one := Nat.cast_pos.mpr Decimal.one_pos
  have hsub : size code - n = ((binary64.units code : ℤ) - (n * one : ℕ) : ℤ) / (one : ℚ) := by
    rw [size, eq_div_iff hone.ne', sub_mul, div_mul_cancel₀ _ hone.ne']
    push_cast
    ring
  rw [hsub, abs_div, abs_of_pos hone, ← Int.cast_abs, Int.abs_eq_natAbs, Int.cast_natCast, distance]

theorem distance_le_iff {a b n : ℕ} :
    |size a - n| ≤ |size b - n| ↔ distance a n ≤ distance b n := by
  have hone : (0 : ℚ) < one := Nat.cast_pos.mpr Decimal.one_pos
  rw [abs_size_sub, abs_size_sub, div_le_div_iff_of_pos_right hone, Nat.cast_le]

theorem distance_eq_iff {a b n : ℕ} :
    |size a - n| = |size b - n| ↔ distance a n = distance b n := by
  rw [le_antisymm_iff, le_antisymm_iff, distance_le_iff, distance_le_iff]

section Nearest

variable {n : ℕ} {code : Magnitude}

/-- A number that rounds to a finite code is below the limit. -/
theorem lt_overflow (h : binary64.Rounds (n * one) 1 code) : n < overflow := by
  have hmono := binary64.units_strictMono.monotone
  have hcode := code.isLt
  have hfirst : binary64.units code ≤ binary64.units (0x7FF0000000000000 - 1) :=
    hmono (by omega)
  have hsecond : binary64.units (code + 1) ≤ binary64.units 0x7FF0000000000000 :=
    hmono (by omega)
  have hhigh := h.high
  have htop := overflow_units
  have hle : n * one ≤ overflow * one := by omega
  refine lt_of_le_of_ne (Nat.le_of_mul_le_mul_right hle Decimal.one_pos) fun heq => ?_
  -- at the limit itself a half goes to the even code, which is that of infinity
  rw [heq] at h hhigh
  have heven := h.high_even (by omega)
  have hlast : code.val = 0x7FF0000000000000 - 1 :=
    binary64.units_strictMono.injective (by omega)
  omega

/-- What lies between the middles is nearest by distance. -/
theorem nearestTo_of_rounds (h : binary64.Rounds (n * one) 1 code) :
    NearestTo n (.finite false code) := by
  have hmono := binary64.units_strictMono.monotone
  have hlimit := lt_overflow h
  obtain ⟨hlow, hhigh, hlowEven, hhighEven⟩ := h
  rw [Nat.one_mul] at hlow hhigh hlowEven hhighEven
  -- where another magnitude stands in relation to the neighbours of the code
  have hside : ∀ other : Magnitude, other ≠ code →
      binary64.units other ≤ binary64.units (code - 1) ∧
        binary64.units other < binary64.units code ∨
      binary64.units (code + 1) ≤ binary64.units other ∧
        binary64.units code < binary64.units other := by
    intro other hne
    rcases Nat.lt_or_gt_of_ne (fun heq => hne (Fin.ext heq)) with hlt | hlt
    · exact .inl ⟨hmono (by omega), binary64.units_strictMono hlt⟩
    · exact .inr ⟨hmono (by omega), binary64.units_strictMono hlt⟩
  refine .finite (fun other => ?_) (fun other hne heq => ?_) hlimit
  · rw [distance_le_iff, distance, distance]
    by_cases hne : other = code
    · rw [hne]
    · rcases hside other hne with hbelow | habove
      · omega
      · omega
  · rw [distance_eq_iff, distance, distance] at heq
    rcases hside other hne with hbelow | habove
    · exact hlowEven (by omega)
    · exact hhighEven (by omega)

/-- What is nearest by distance lies between the middles. -/
theorem rounds_of_nearestTo (h : NearestTo n (.finite false code)) :
    binary64.Rounds (n * one) 1 code := by
  obtain ⟨hnearest, heven, hlimit⟩ | _ := h
  simp only [distance_le_iff, distance_eq_iff, distance] at hnearest heven
  have hcode := code.isLt
  have habove : binary64.units code < binary64.units (code + 1) :=
    binary64.units_strictMono (Nat.lt_succ_self _)
  have hlow : binary64.units (code - 1) + binary64.units code ≤ 2 * (n * one) ∧
      (binary64.units (code - 1) + binary64.units code = 2 * (n * one) → code.val % 2 = 0) := by
    rcases Nat.eq_zero_or_pos code.val with hzero | hpos
    · have hunits : binary64.units code = 0 := by rw [hzero, binary64.units_zero]
      have hunits' : binary64.units (code - 1) = 0 := by rw [hzero, binary64.units_zero]
      omega
    · have hbelow : binary64.units (code - 1) < binary64.units code :=
        binary64.units_strictMono (by omega)
      have hle := hnearest ⟨code - 1, by omega⟩
      have hne := heven ⟨code - 1, by omega⟩ (Fin.ne_of_lt (Nat.sub_lt hpos Nat.one_pos))
      dsimp only at hle hne
      omega
  have hhigh : 2 * (n * one) ≤ binary64.units code + binary64.units (code + 1) ∧
      (2 * (n * one) = binary64.units code + binary64.units (code + 1) → code.val % 2 = 0) := by
    rcases Nat.lt_or_ge (code + 1) 0x7FF0000000000000 with hlt | hge
    · have hle := hnearest ⟨code + 1, hlt⟩
      have hne := heven ⟨code + 1, hlt⟩ (Fin.ne_of_gt (Nat.lt_succ_self _))
      dsimp only at hle hne
      omega
    · -- the next code is that of infinity
      have htop := overflow_units
      have hlimit' : n * one < overflow * one := Nat.mul_lt_mul_of_pos_right hlimit Decimal.one_pos
      have hlast : code.val = 0x7FF0000000000000 - 1 := by omega
      have hnext : code.val + 1 = 0x7FF0000000000000 := by omega
      rw [hnext, hlast]
      omega
  refine ⟨?_, ?_, ?_, ?_⟩
  all_goals rw [Nat.one_mul]
  exacts [hlow.1, hhigh.1, hlow.2, hhigh.2]

end Nearest

/-! ## Natural numbers -/

theorem one_eq : one = 2 ^ binary64.unitExponent := by
  unfold one
  generalize binary64.unitExponent = exponent
  exact Nat.pow_eq ..

/-- What a quotient rounds to decides which double is made of it. -/
theorem ofUnits_eq {num den code : ℕ} (negative : Bool) (h : binary64.Rounds num den code)
    (hden : 0 < den) : ofUnits negative num den =
      if small : code < 0x7FF0000000000000 then .finite negative ⟨code, small⟩
      else .inf negative := by
  rw [ofUnits, h.nearestCode_eq Decimal.fractionBits_pos hden]

/-- A number of so many bits, with some zeros behind it, is kept. -/
theorem ofUnits_exact (negative : Bool) {significand k : ℕ} (h : significand < 2 ^ 53)
    (hk : k ≤ 971) : ∃ code : Magnitude,
      ofUnits negative (significand * 2 ^ k * one) 1 = .finite negative code ∧
        binary64.units code = significand * 2 ^ k * one := by
  have hunits := binary64.units_nearestCode Decimal.fractionBits_pos h
    (k + binary64.unitExponent)
  have hnum : significand * 2 ^ k * one = significand * 2 ^ (k + binary64.unitExponent) := by
    rw [Nat.pow_add, one_eq, Nat.mul_assoc]
  rw [hnum]
  have hinf : binary64.units 0x7FF0000000000000 = 2 ^ 53 * 2 ^ (971 + binary64.unitExponent) := by
    decide +kernel
  have hsmall : binary64.nearestCode (significand * 2 ^ (k + binary64.unitExponent)) 1 <
      0x7FF0000000000000 := by
    rw [← binary64.units_strictMono.lt_iff_lt, hunits, hinf]
    exact Nat.mul_lt_mul_of_lt_of_le h (Nat.pow_le_pow_right (by omega) (by omega))
      (Nat.two_pow_pos _)
  exact ⟨⟨_, hsmall⟩, dif_pos hsmall, hunits⟩

/-- A number of at most 53 bits is kept. -/
theorem ofUnits_small (negative : Bool) {n : ℕ} (h : n < 2 ^ 53) : ∃ code : Magnitude,
    ofUnits negative (n * one) 1 = .finite negative code ∧ binary64.units code = n * one := by
  obtain ⟨code, hcode, hunits⟩ := ofUnits_exact negative h (Nat.zero_le 971)
  rw [Nat.pow_zero, Nat.mul_one] at hcode hunits
  exact ⟨code, hcode, hunits⟩

theorem rounds_ofNat (n : ℕ) :
    binary64.Rounds (n * one) 1 (binary64.nearestCode (n * one) 1) :=
  BinaryFormat.rounds_nearestCode Decimal.fractionBits_pos _ Nat.one_pos

/-- A natural number that does not round to a finite code is at or beyond the limit. -/
theorem overflow_le {n code : ℕ} (h : binary64.Rounds (n * one) 1 code)
    (hcode : 0x7FF0000000000000 ≤ code) : overflow ≤ n := by
  have hmono := binary64.units_strictMono.monotone
  have hfirst : binary64.units (0x7FF0000000000000 - 1) ≤ binary64.units (code - 1) :=
    hmono (by omega)
  have hsecond : binary64.units 0x7FF0000000000000 ≤ binary64.units code := hmono hcode
  have hlow := h.low
  have htop := overflow_units
  have hle : overflow * one ≤ n * one := by omega
  exact Nat.le_of_mul_le_mul_right hle Decimal.one_pos

theorem nearestTo_ofNat (n : ℕ) : NearestTo n (ofNat n) := by
  rw [ofNat, ofRatio, ofUnits]
  split
  · exact nearestTo_of_rounds (rounds_ofNat n)
  · exact .inf (overflow_le (rounds_ofNat n) (by omega))

/-- Only one double is nearest to a number. -/
theorem NearestTo.unique {n : ℕ} {x y : Double} (hx : NearestTo n x) (hy : NearestTo n y) :
    x = y := by
  cases hx with
  | finite hnear heven hlimit =>
    have hrounds := rounds_of_nearestTo (.finite hnear heven hlimit)
    cases hy with
    | finite hnear' heven' hlimit' =>
      have hrounds' := rounds_of_nearestTo (.finite hnear' heven' hlimit')
      exact congrArg _ (Fin.ext (hrounds.unique Nat.one_pos hrounds'))
    | inf hbeyond => omega
  | inf hbeyond =>
    cases hy with
    | finite _ _ hlimit => omega
    | inf => rfl

/-- The double nearest to a natural number is the one that is made of it. -/
theorem nearestTo_iff {n : ℕ} {x : Double} : NearestTo n x ↔ x = ofNat n :=
  ⟨fun h => h.unique (nearestTo_ofNat n), fun h => h ▸ nearestTo_ofNat n⟩

end Double

end ScriptSimplifier
