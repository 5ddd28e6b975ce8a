import Mathlib.Data.List.Forall2
import Mathlib.Data.Nat.Digits.Defs
import ScriptSimplifier.Proofs.Numeric.Nearest
import ScriptSimplifier.Value.Conversion

/-!
# Literals of a radix

A literal of radix sixteen, eight or two is read digit by digit, and each step rounds.  While the
number read so far has at most 53 bits nothing is lost; one more digit is rounded once, and from
then on a digit is less than half a step and leaves the number where it is (`add_absorbed`).  So the
result is the double nearest to the number with zeros for these digits (`ofDigits_eq`).  It is the
one nearest to the number itself but for one case: the digits that count are just in the middle
between two doubles of which the lower is even, and one of the others is not zero
(`radix_digits_rounded`).
-/

namespace ScriptSimplifier

namespace Double

/-! ## Large numbers -/

/-- A magnitude of more than 53 bits is an even number. -/
theorem two_dvd_units {code : ℕ} (h : 2 ^ 53 * one ≤ binary64.units code) :
    2 * one ∣ binary64.units code := by
  obtain ⟨exponent, hexponent⟩ : ∃ exponent, one = 2 ^ exponent := ⟨_, one_eq⟩
  rw [hexponent] at h
  rw [hexponent, ← Nat.pow_succ']
  have hnormal : 2 ^ 52 * 2 ^ (exponent + 1) = 2 ^ 53 * 2 ^ exponent := by ring
  exact binary64.two_pow_dvd_units (hnormal.trans_le h)

/-- The next magnitude is even as well, so it is at least two away. -/
theorem units_add_two_le {code : ℕ} (h : 2 ^ 53 * one ≤ binary64.units code) :
    binary64.units code + 2 * one ≤ binary64.units (code + 1) := by
  have hnext : binary64.units code < binary64.units (code + 1) :=
    binary64.units_strictMono (Nat.lt_succ_self _)
  obtain ⟨a, ha⟩ := two_dvd_units h
  obtain ⟨b, hb⟩ := two_dvd_units (h.trans hnext.le)
  have hab : a < b := by
    rw [ha, hb] at hnext
    exact Nat.lt_of_mul_lt_mul_left hnext
  rw [ha, hb]
  calc 2 * one * a + 2 * one = 2 * one * (a + 1) := by ring
    _ ≤ 2 * one * b := Nat.mul_le_mul_left _ hab

section Large

variable {n code : ℕ} (hlarge : 2 ^ 53 ≤ n) (hrounds : binary64.Rounds (n * one) 1 code)

include hlarge hrounds

/-- A number of more than 53 bits rounds to such a magnitude. -/
theorem large_units : 2 ^ 53 * one ≤ binary64.units code := by
  obtain ⟨bound, hbound⟩ := binary64.exists_units
    (show 1 < 2 ^ (52 + 1) by decide) (53 + binary64.unitExponent)
  have hbound' : binary64.units bound = 2 ^ 53 * one := by
    rw [hbound, one_eq, Nat.one_mul, Nat.pow_add]
  have hle : bound ≤ code := by
    refine hrounds.le_code ?_ Nat.one_pos
    rw [Nat.one_mul, hbound']
    exact Nat.mul_le_mul_right one hlarge
  rw [← hbound']
  exact binary64.units_strictMono.monotone hle

/-- The code is far from that of the first normalized magnitude. -/
theorem large_code : 2 ^ 52 < code := by
  have hfirst : binary64.units (2 ^ 52 + 1) ≤ 2 ^ 53 * one := by decide +kernel
  refine Nat.lt_of_succ_le (hrounds.le_code ?_ Nat.one_pos)
  rw [Nat.one_mul]
  exact hfirst.trans (Nat.mul_le_mul_right one hlarge)

/-- Such a number times a power of two rounds so many binades further up. -/
theorem rounds_large (k : ℕ) :
    binary64.Rounds (n * 2 ^ k * one) 1 (code + k * 2 ^ 52) := by
  have hscaled := hrounds.mul_two_pow Decimal.fractionBits_pos (large_code hlarge hrounds) k
  rwa [Nat.mul_right_comm] at hscaled

theorem units_large (k : ℕ) :
    binary64.units (code + k * 2 ^ 52) = binary64.units code * 2 ^ k :=
  binary64.units_add_mul (large_code hlarge hrounds).le k

theorem units_large_succ (k : ℕ) :
    binary64.units (code + k * 2 ^ 52 + 1) = binary64.units (code + 1) * 2 ^ k := by
  rw [Nat.add_right_comm]
  exact binary64.units_add_mul
    (Nat.le_succ_of_le (large_code hlarge hrounds).le) k

end Large

/-! ## One step -/

theorem ofNat_eq_ofUnits (n : ℕ) : ofNat n = ofUnits false (n * one) 1 := rfl

/-- Only the quotient of a numerator and a denominator matters. -/
theorem ofUnits_scale (negative : Bool) {num den num' den' : ℕ} (hden : 0 < den) (hden' : 0 < den')
    (h : num * den' = num' * den) : ofUnits negative num den = ofUnits negative num' den' := by
  have hrounds : binary64.Rounds num den (binary64.nearestCode num den) :=
    BinaryFormat.rounds_nearestCode Decimal.fractionBits_pos num hden
  rw [ofUnits_eq negative hrounds hden, ofUnits_eq negative (hrounds.scale hden hden' h) hden']

/-- The sum of two magnitudes is rounded once. -/
theorem add_magnitudes (a b : Magnitude) : (finite false a).add (finite false b) =
    ofUnits false (binary64.units a + binary64.units b) 1 := by
  have hsum : signedUnits false a + signedUnits false b =
      ((binary64.units a + binary64.units b : ℕ) : ℤ) := (Nat.cast_add ..).symm
  have hnonneg : ¬ ((binary64.units a + binary64.units b : ℕ) : ℤ) < 0 := by omega
  simp only [add, hsum, Int.natCast_eq_zero, Bool.and_false, decide_eq_false hnonneg,
    Int.natAbs_natCast]
  split
  · rename_i hzero
    rw [hzero]
    decide
  · rfl

/-- The product of two magnitudes is rounded once. -/
theorem mul_magnitudes (a b : Magnitude) : (finite false a).mul (finite false b) =
    ofUnits false (binary64.units a * binary64.units b) one := rfl

section Step

variable {n d k : ℕ}

/-- Multiplication by a radix is exact, and a product that is too large is infinite. -/
theorem mul_two_pow (n : ℕ) (hk : k ≤ 52) :
    (ofNat n).mul (ofNat (2 ^ k)) = ofNat (n * 2 ^ k) := by
  have hone := Decimal.one_pos
  obtain ⟨r, hr, hr'⟩ := ofUnits_exact false (show 1 < 2 ^ 53 by decide) (show k ≤ 971 by omega)
  rw [Nat.one_mul] at hr hr'
  rw [ofNat_eq_ofUnits (2 ^ k), hr]
  -- up to 53 bits both factors are exact; above that the code of the product is the code shifted
  rcases Nat.lt_or_ge n (2 ^ 53) with hsmall | hlarge
  · obtain ⟨c, hc, hc'⟩ := ofUnits_small false hsmall
    rw [ofNat_eq_ofUnits, hc, mul_magnitudes, hc', hr', ofNat_eq_ofUnits]
    exact ofUnits_scale false hone Nat.one_pos (by ring)
  · have hrounds := rounds_ofNat n
    generalize binary64.nearestCode (n * one) 1 = code at hrounds
    have hscaled := rounds_large hlarge hrounds k
    rw [ofNat_eq_ofUnits (n * 2 ^ k), ofUnits_eq false hscaled Nat.one_pos, ofNat_eq_ofUnits,
      ofUnits_eq false hrounds Nat.one_pos]
    by_cases hcode : code < 0x7FF0000000000000
    · rw [dif_pos hcode, mul_magnitudes]
      have hexact := binary64.rounds_units hone (code + k * 2 ^ 52)
      rw [units_large hlarge hrounds] at hexact
      rw [hr', ← Nat.mul_assoc, Nat.mul_comm, ofUnits_eq false hexact hone]
    · have hbeyond : ¬ code + k * 2 ^ 52 < 0x7FF0000000000000 := by omega
      have hne : r.val ≠ 0 := by
        intro hzero
        rw [hzero, binary64.units_zero] at hr'
        exact absurd hr' (Nat.mul_pos (Nat.two_pow_pos k) hone).ne
      rw [dif_neg hcode, dif_neg hbeyond, mul, if_neg hne]
      rfl

/-- A digit behind a number of at most 53 bits is added and the sum rounded. -/
theorem add_digit (hn : n < 2 ^ 53) (hd : d < 2 ^ 53) (hk : k ≤ 52) :
    (ofNat (n * 2 ^ k)).add (ofNat d) = ofNat (n * 2 ^ k + d) := by
  obtain ⟨a, ha, ha'⟩ := ofUnits_exact false hn (show k ≤ 971 by omega)
  obtain ⟨b, hb, hb'⟩ := ofUnits_small false hd
  rw [ofNat_eq_ofUnits, ofNat_eq_ofUnits d, ha, hb, add_magnitudes, ha', hb', ofNat_eq_ofUnits,
    Nat.add_mul]

/-- A digit behind a number of more than 53 bits is less than half a step. -/
theorem add_absorbed (hn : 2 ^ 53 ≤ n) (hd : d < 2 ^ k) (hk : k ≤ 52) :
    (ofNat (n * 2 ^ k)).add (ofNat d) = ofNat (n * 2 ^ k) := by
  have hone := Decimal.one_pos
  have hbound : 2 ^ k < 2 ^ 53 := Nat.pow_lt_pow_right (by omega) (by omega)
  obtain ⟨b, hb, hb'⟩ := ofUnits_small false (hd.trans hbound)
  have hrounds := rounds_ofNat n
  generalize binary64.nearestCode (n * one) 1 = code at hrounds
  have hscaled := rounds_large hn hrounds k
  rw [ofNat_eq_ofUnits, ofNat_eq_ofUnits d, hb, ofUnits_eq false hscaled Nat.one_pos]
  by_cases hcode : code + k * 2 ^ 52 < 0x7FF0000000000000
  · have hlarge := large_units hn hrounds
    have hstep : binary64.units (code + k * 2 ^ 52) + 2 * one * 2 ^ k ≤
        binary64.units (code + k * 2 ^ 52 + 1) := by
      rw [units_large hn hrounds, units_large_succ hn hrounds, ← Nat.add_mul]
      exact Nat.mul_le_mul_right _ (units_add_two_le hlarge)
    have hdigit : d * one < 2 ^ k * one := Nat.mul_lt_mul_of_pos_right hd hone
    have hnear : binary64.Rounds (binary64.units (code + k * 2 ^ 52) + d * one) 1
        (code + k * 2 ^ 52) := by
      refine BinaryFormat.rounds_of_near Nat.one_pos (by omega) ?_
      rw [Nat.mul_right_comm, Nat.mul_assoc] at hstep
      omega
    rw [dif_pos hcode, add_magnitudes, hb', ofUnits_eq false hnear Nat.one_pos, dif_pos hcode]
  · rw [dif_neg hcode]
    rfl

end Step

/-! ## A run -/

/-- The number that a running double stands for after one more digit: beyond 53 bits only its
place counts. -/
def absorb (radix n d : ℕ) : ℕ := if n < 2 ^ 53 then n * radix + d else n * radix

theorem absorb_small {radix n d : ℕ} (hn : n < 2 ^ 53) : absorb radix n d = n * radix + d := by
  rw [absorb, if_pos hn]

theorem absorb_large {radix n d : ℕ} (hn : 2 ^ 53 ≤ n) : absorb radix n d = n * radix := by
  rw [absorb, if_neg (Nat.not_lt.mpr hn)]

theorem ofNat_absorb {n d k : ℕ} (hk : k ≤ 52) (hd : d < 2 ^ k) :
    ((ofNat n).mul (ofNat (2 ^ k))).add (ofNat d) = ofNat (absorb (2 ^ k) n d) := by
  rw [mul_two_pow n hk]
  rcases Nat.lt_or_ge n (2 ^ 53) with hsmall | hlarge
  · rw [absorb_small hsmall]
    exact add_digit hsmall (hd.trans (Nat.pow_lt_pow_right (by omega) (by omega))) hk
  · rw [absorb_large hlarge]
    exact add_absorbed hlarge hd hk

theorem ofNat_foldl_absorb {k : ℕ} (hk : k ≤ 52) (digits : List ℕ) (hd : ∀ d ∈ digits, d < 2 ^ k)
    (n : ℕ) : digits.foldl (fun x d => (x.mul (ofNat (2 ^ k))).add (ofNat d)) (ofNat n) =
      ofNat (digits.foldl (absorb (2 ^ k)) n) := by
  induction digits generalizing n with
  | nil => rw [List.foldl_nil, List.foldl_nil]
  | cons d digits ih =>
    obtain ⟨hfirst, hrest⟩ := List.forall_mem_cons.mp hd
    rw [List.foldl_cons, List.foldl_cons, ofNat_absorb hk hfirst, ih hrest]

/-! ## What is lost -/

/-- A number is just in the middle between two doubles, of which the lower one is even. -/
def Middle (n : ℕ) : Prop :=
  ∃ code : Magnitude, code.val % 2 = 0 ∧ (2 * n : ℚ) = size code + size (code + 1)

theorem middle_iff {a b n : ℕ} : (2 * n : ℚ) = size a + size b ↔
    2 * (n * one) = binary64.units a + binary64.units b := by
  have hone : (0 : ℚ) < one := Nat.cast_pos.mpr Decimal.one_pos
  rw [size, size, ← add_div, eq_div_iff hone.ne', ← Nat.cast_inj (R := ℚ)]
  push_cast
  rw [mul_assoc]

/-- A number in the middle is rounded to the lower double. -/
theorem Middle.rounds {n code : ℕ} (h : Middle n) (hrounds : binary64.Rounds (n * one) 1 code) :
    code < 0x7FF0000000000000 ∧
      2 * (n * one) = binary64.units code + binary64.units (code + 1) := by
  obtain ⟨lower, heven, hmiddle⟩ := h
  rw [middle_iff] at hmiddle
  have hbelow : binary64.units (lower - 1) ≤ binary64.units lower :=
    binary64.units_strictMono.monotone (Nat.sub_le _ _)
  have habove : binary64.units lower < binary64.units (lower + 1) :=
    binary64.units_strictMono (Nat.lt_succ_self _)
  have hlower : binary64.Rounds (n * one) 1 lower :=
    ⟨by omega, by omega, fun _ => heven, fun _ => heven⟩
  rw [hrounds.unique Nat.one_pos hlower]
  exact ⟨lower.isLt, hmiddle⟩

section Lost

variable {n k rest code : ℕ} (hn : 2 ^ 53 ≤ n) (hrest : rest < 2 ^ k)
  (hrounds : binary64.Rounds (n * one) 1 code)

include hn hrest hrounds

/-- Below the middle, the next middle is more than the zeros behind the number away. -/
theorem rounds_rest_below (hbelow : 2 * (n * 2 ^ k * one) <
    binary64.units (code + k * 2 ^ 52) + binary64.units (code + k * 2 ^ 52 + 1)) :
    binary64.Rounds ((n * 2 ^ k + rest) * one) 1 (code + k * 2 ^ 52) := by
  have hdigits : rest * one < 2 ^ k * one := Nat.mul_lt_mul_of_pos_right hrest Decimal.one_pos
  have hlarge := large_units hn hrounds
  obtain ⟨hlow, -, hlowEven, -⟩ := rounds_large hn hrounds k
  -- the number and the middle are multiples of the zeros
  have hroom : 2 * (n * 2 ^ k * one) + 2 * (2 ^ k * one) ≤
      binary64.units (code + k * 2 ^ 52) + binary64.units (code + k * 2 ^ 52 + 1) := by
    obtain ⟨a, ha⟩ := two_dvd_units hlarge
    obtain ⟨b, hb⟩ := two_dvd_units (hlarge.trans (le_of_add_le_left (units_add_two_le hlarge)))
    have hleft : 2 * (n * 2 ^ k * one) = 2 * (2 ^ k * one) * n := by ring
    have hsum : binary64.units (code + k * 2 ^ 52) + binary64.units (code + k * 2 ^ 52 + 1) =
        2 * (2 ^ k * one) * (a + b) := by
      rw [units_large hn hrounds, units_large_succ hn hrounds, ha, hb]
      ring
    rw [hsum, hleft] at hbelow ⊢
    have hab := Nat.lt_of_mul_lt_mul_left hbelow
    calc 2 * (2 ^ k * one) * n + 2 * (2 ^ k * one) = 2 * (2 ^ k * one) * (n + 1) := by ring
      _ ≤ 2 * (2 ^ k * one) * (a + b) := Nat.mul_le_mul_left _ hab
  have hnum : (n * 2 ^ k + rest) * one = n * 2 ^ k * one + rest * one := Nat.add_mul ..
  rw [Nat.one_mul] at hlow hlowEven
  refine ⟨?_, ?_, fun heq => hlowEven ?_, fun heq => ?_⟩
  all_goals rw [hnum] at *
  all_goals omega

/-- In the middle, any rest decides for the double above. -/
theorem rounds_rest_middle (hpos : 0 < rest) (hmiddle : 2 * (n * 2 ^ k * one) =
    binary64.units (code + k * 2 ^ 52) + binary64.units (code + k * 2 ^ 52 + 1)) :
    binary64.Rounds ((n * 2 ^ k + rest) * one) 1 (code + k * 2 ^ 52 + 1) := by
  have hdigits : rest * one < 2 ^ k * one := Nat.mul_lt_mul_of_pos_right hrest Decimal.one_pos
  have hsome : 0 < rest * one := Nat.mul_pos hpos Decimal.one_pos
  have hstep : binary64.units (code + k * 2 ^ 52) + 2 * (2 ^ k * one) ≤
      binary64.units (code + k * 2 ^ 52 + 1) := by
    have hcomm : 2 * (2 ^ k * one) = 2 * one * 2 ^ k := by ring
    rw [units_large hn hrounds, units_large_succ hn hrounds, hcomm, ← Nat.add_mul]
    exact Nat.mul_le_mul_right _ (units_add_two_le (large_units hn hrounds))
  have hnext : binary64.units (code + k * 2 ^ 52 + 1) <
      binary64.units (code + k * 2 ^ 52 + 1 + 1) := binary64.units_strictMono (Nat.lt_succ_self _)
  have hnum : (n * 2 ^ k + rest) * one = n * 2 ^ k * one + rest * one := Nat.add_mul ..
  have hbelow : code + k * 2 ^ 52 + 1 - 1 = code + k * 2 ^ 52 := Nat.add_sub_cancel ..
  refine ⟨?_, ?_, fun heq => ?_, fun heq => ?_⟩
  all_goals rw [hnum] at *
  all_goals rw [hbelow] at *
  all_goals omega

omit hrounds in
/-- The rest of a number of more than 53 bits matters only if the number is just in the middle. -/
theorem ofNat_add_rest : ofNat (n * 2 ^ k) = ofNat (n * 2 ^ k + rest) ↔
    ¬ (0 < rest ∧ Middle (n * 2 ^ k)) := by
  have hrounds := rounds_ofNat n
  generalize binary64.nearestCode (n * one) 1 = code at hrounds
  have hscaled := rounds_large hn hrounds k
  rw [ofNat_eq_ofUnits, ofNat_eq_ofUnits (n * 2 ^ k + rest), ofUnits_eq false hscaled Nat.one_pos]
  rcases Nat.eq_zero_or_pos rest with rfl | hpos
  · rw [Nat.add_zero, ofUnits_eq false hscaled Nat.one_pos]
    simp
  -- just in the middle the rest decides, and anywhere else the same code stays the nearest one
  by_cases hmiddle : 2 * (n * 2 ^ k * one) =
    binary64.units (code + k * 2 ^ 52) + binary64.units (code + k * 2 ^ 52 + 1)
  · rw [ofUnits_eq false (rounds_rest_middle hn hrest hrounds hpos hmiddle) Nat.one_pos]
    by_cases hcode : code + k * 2 ^ 52 < 0x7FF0000000000000
    · have hdiffer : Middle (n * 2 ^ k) :=
        ⟨⟨_, hcode⟩, hscaled.high_even (by rw [hmiddle, Nat.one_mul]), middle_iff.mpr hmiddle⟩
      rw [dif_pos hcode]
      simp only [hpos, hdiffer, and_self, not_true_eq_false, iff_false]
      split
      · simp
      · simp
    · -- both are infinite
      have hsame : ¬ Middle (n * 2 ^ k) := fun h => hcode (h.rounds hscaled).1
      rw [dif_neg hcode, dif_neg (by omega)]
      simp [hsame]
  · have hsame : ¬ Middle (n * 2 ^ k) := fun h => hmiddle (h.rounds hscaled).2
    have hhigh := hscaled.high
    rw [Nat.one_mul] at hhigh
    have hbelow := Nat.lt_of_le_of_ne hhigh hmiddle
    rw [ofUnits_eq false (rounds_rest_below hn hrest hrounds hbelow) Nat.one_pos]
    simp [hsame]

end Lost

end Double

/-! ## Digits that count -/

/-- The number that digits spell, the highest one first. -/
def positional (radix : ℕ) (digits : List ℕ) : ℕ := Nat.ofDigits radix digits.reverse

theorem positional_append (radix : ℕ) (front back : List ℕ) : positional radix (front ++ back) =
    positional radix front * radix ^ back.length + positional radix back := by
  rw [positional, List.reverse_append, Nat.ofDigits_append, List.length_reverse, Nat.mul_comm,
    Nat.add_comm, positional, positional]

theorem positional_snoc (radix : ℕ) (digits : List ℕ) (d : ℕ) :
    positional radix (digits ++ [d]) = positional radix digits * radix + d := by
  rw [positional_append]
  simp [positional]

/-- The digits of a literal that count, and the others: the first ones, until they have more than
53 bits. -/
structure Leading (radix : ℕ) (front back : List ℕ) : Prop where
  enough : back = [] ∨ 2 ^ 53 ≤ positional radix front
  least : ∀ fewer, fewer <+: front → fewer ≠ front → positional radix fewer < 2 ^ 53

/-- A run stands for the digits that count, with zeros for the others. -/
theorem exists_leading {radix : ℕ} (hradix : 0 < radix) (digits : List ℕ) :
    ∃ front back, digits = front ++ back ∧ Leading radix front back ∧
    digits.foldl (Double.absorb radix) 0 = positional radix front * radix ^ back.length := by
  induction digits using List.reverseRecOn with
  | nil => exact ⟨[], [], rfl, ⟨.inl rfl, by simp⟩, by simp [positional]⟩
  | append_singleton digits d ih =>
    obtain ⟨front, back, rfl, ⟨henough, hleast⟩, hrun⟩ := ih
    rw [List.foldl_append, List.foldl_cons, List.foldl_nil, hrun]
    rcases Nat.lt_or_ge (positional radix front) (2 ^ 53) with hsmall | hlarge
    · obtain rfl : back = [] := henough.resolve_right (Nat.not_le.mpr hsmall)
      refine ⟨front ++ [d], [], by simp, ⟨.inl rfl, fun fewer hfewer hne => ?_⟩, ?_⟩
      · rcases List.prefix_concat_iff.mp hfewer with rfl | hprefix
        · exact absurd rfl hne
        · by_cases heq : fewer = front
          · rwa [heq]
          · exact hleast fewer hprefix heq
      · rw [List.length_nil, Nat.pow_zero, Nat.mul_one, Nat.mul_one, Double.absorb_small hsmall,
          positional_snoc]
    · refine ⟨front, back ++ [d], by simp, ⟨.inr hlarge, hleast⟩, ?_⟩
      rw [Double.absorb_large (Nat.le_trans hlarge (Nat.le_mul_of_pos_right _
        (Nat.pow_pos hradix))), List.length_append, List.length_singleton, Nat.pow_succ,
        Nat.mul_assoc]

theorem positional_lt {radix : ℕ} (hradix : 1 < radix) {digits : List ℕ}
    (h : ∀ d ∈ digits, d < radix) : positional radix digits < radix ^ digits.length := by
  rw [positional, ← List.length_reverse]
  exact Nat.ofDigits_lt_base_pow_length hradix fun d hd => h d (List.mem_reverse.mp hd)

/-! ## Literals -/

namespace NumericString

/-- A byte is a digit of a radix: a figure, or a letter of either case. -/
structure Spells (radix : ℕ) (b : UInt8) (d : ℕ) : Prop where
  lt : d < radix
  byte : b = Text.ascii d.digitChar ∨ b = Text.ascii d.digitChar.toUpper

instance (radix : ℕ) (b : UInt8) (d : ℕ) : Decidable (Spells radix b d) :=
  decidable_of_iff (d < radix ∧
    (b = Text.ascii d.digitChar ∨ b = Text.ascii d.digitChar.toUpper))
    ⟨fun h => ⟨h.1, h.2⟩, fun h => ⟨h.lt, h.byte⟩⟩

/-- What holds of all numbers of a byte holds of all bytes. -/
theorem forall_byte {p : UInt8 → Prop} (h : ∀ n : Fin 256, p (UInt8.ofNat n)) (b : UInt8) :
    p b := by
  have hb := h ⟨b.toNat, b.toNat_lt⟩
  rwa [UInt8.ofNat_toNat] at hb

theorem hexDigit?_eq_some_iff {b : UInt8} {d : ℕ} : Text.hexDigit? b = some d ↔ Spells 16 b d := by
  have hbytes : ∀ b, ∀ d ∈ Text.hexDigit? b, Spells 16 b d := forall_byte (by decide +kernel)
  have hdigits : ∀ d : Fin 16, Text.hexDigit? (Text.ascii d.val.digitChar) = some d.val ∧
      Text.hexDigit? (Text.ascii d.val.digitChar.toUpper) = some d.val := by decide +kernel
  constructor
  · exact hbytes b d
  · rintro ⟨hlt, rfl | rfl⟩
    · exact (hdigits ⟨d, hlt⟩).1
    · exact (hdigits ⟨d, hlt⟩).2

/-- The digits that are read are those of the radix. -/
theorem digit?_eq_some_iff {radix : ℕ} (hradix : radix ≤ 16) {b : UInt8} {d : ℕ} :
    digit? radix b = some d ↔ Spells radix b d := by
  rw [digit?, Option.filter_eq_some_iff, hexDigit?_eq_some_iff, decide_eq_true_iff]
  constructor
  · rintro ⟨⟨-, hbyte⟩, hlt⟩
    exact ⟨hlt, hbyte⟩
  · rintro ⟨hlt, hbyte⟩
    exact ⟨⟨Nat.lt_of_lt_of_le hlt hradix, hbyte⟩, hlt⟩

theorem forall_lt {radix : ℕ} {text : Text} {digits : List ℕ}
    (h : List.Forall₂ (Spells radix) text digits) : ∀ d ∈ digits, d < radix := by
  induction h with
  | nil => simp
  | cons hd _ ih => exact List.forall_mem_cons.mpr ⟨hd.lt, ih⟩

/-- The digits of a literal are taken one after the other. -/
theorem ofDigits_eq_foldl {radix : ℕ} (hradix : radix ≤ 16) {text : Text} {digits : List ℕ}
    (h : List.Forall₂ (Spells radix) text digits) : ofDigits radix text =
      digits.foldl (fun x d => (x.mul (.ofNat radix)).add (.ofNat d)) (.zero false) := by
  have hrun : ∀ x : Double, text.foldlM (fun x b =>
      (digit? radix b).map fun d => (x.mul (.ofNat radix)).add (.ofNat d)) x =
        some (digits.foldl (fun x d => (x.mul (.ofNat radix)).add (.ofNat d)) x) := by
    induction h with
    | nil => exact fun x => rfl
    | cons hd _ ih =>
      intro x
      rw [List.foldlM_cons, (digit?_eq_some_iff hradix).mpr hd]
      exact ih _
  rw [ofDigits, hrun, Option.getD_some]

theorem radix_eq_two_pow {radix : ℕ} (h : radix = 16 ∨ radix = 8 ∨ radix = 2) :
    ∃ k, 0 < k ∧ k ≤ 4 ∧ radix = 2 ^ k := by
  rcases h with rfl | rfl | rfl
  · exact ⟨4, by decide⟩
  · exact ⟨3, by decide⟩
  · exact ⟨1, by decide⟩

/-- Digits are read as a number of which some digits are zeros. -/
theorem ofDigits_eq_ofNat {k : ℕ} (hk : k ≤ 4) {text : Text} {digits : List ℕ}
    (h : List.Forall₂ (Spells (2 ^ k)) text digits) :
    ofDigits (2 ^ k) text = .ofNat (digits.foldl (Double.absorb (2 ^ k)) 0) := by
  have hle : 2 ^ k ≤ 2 ^ 4 := Nat.pow_le_pow_right (by decide) hk
  have hzero : Double.zero false = .ofNat 0 := by decide +kernel
  rw [ofDigits_eq_foldl hle h, hzero, Double.ofNat_foldl_absorb (by omega) _ (forall_lt h)]

/-- A literal of radix sixteen, eight or two is the double nearest to the number that has zeros for
the digits that do not count.  It is also the one nearest to the exact number, unless the digits
that count are just in the middle between two doubles, the lower one even, and another digit is not
zero. -/
theorem radix_digits_rounded {radix : ℕ} (hradix : radix = 16 ∨ radix = 8 ∨ radix = 2)
    {text : Text} {digits : List ℕ} (hdigits : List.Forall₂ (Spells radix) text digits) :
    ∃ front back, digits = front ++ back ∧ Leading radix front back ∧
      Double.NearestTo (positional radix front * radix ^ back.length) (ofDigits radix text) ∧
      (Double.NearestTo (positional radix digits) (ofDigits radix text) ↔
        ¬ (0 < positional radix back ∧
          Double.Middle (positional radix front * radix ^ back.length))) := by
  obtain ⟨k, hk, hk', rfl⟩ := radix_eq_two_pow hradix
  have hone : 1 < 2 ^ k := Nat.one_lt_two_pow hk.ne'
  have hlt := forall_lt hdigits
  have hrounded := ofDigits_eq_ofNat hk' hdigits
  obtain ⟨front, back, rfl, hleading, hrun⟩ := exists_leading (Nat.two_pow_pos k) digits
  have hresult : ofDigits (2 ^ k) text =
      .ofNat (positional (2 ^ k) front * (2 ^ k) ^ back.length) := by
    rw [hrounded, hrun]
  refine ⟨front, back, rfl, hleading, ?_, ?_⟩
  · rw [hresult]
    exact Double.nearestTo_ofNat _
  · rw [Double.nearestTo_iff, hresult, positional_append]
    rcases hleading.enough with rfl | hlarge
    · simp [positional]
    · have hrest := positional_lt hone fun d hd => hlt d (List.mem_append_right front hd)
      rw [← Nat.pow_mul] at hrest ⊢
      exact Double.ofNat_add_rest hlarge hrest

/-- The digits `ffffffffffffFC` are in the middle between two doubles, of which the upper one is
even, so the digits behind them do no harm. -/
theorem radix_digits_rounded_upper_even :
    List.Forall₂ (Spells 16) (Text.ofString "ffffffffffffFC1f")
      [15, 15, 15, 15, 15, 15, 15, 15, 15, 15, 15, 15, 15, 12, 1, 15] ∧
    ∃ front back, [15, 15, 15, 15, 15, 15, 15, 15, 15, 15, 15, 15, 15, 12, 1, 15] = front ++ back ∧
      Leading 16 front back ∧
      Double.NearestTo (positional 16 front * 16 ^ back.length)
        (ofDigits 16 (Text.ofString "ffffffffffffFC1f")) ∧
      ¬ (0 < positional 16 back ∧ Double.Middle (positional 16 front * 16 ^ back.length)) := by
  have hdigits : List.Forall₂ (Spells 16) (Text.ofString "ffffffffffffFC1f")
      [15, 15, 15, 15, 15, 15, 15, 15, 15, 15, 15, 15, 15, 12, 1, 15] := by decide
  obtain ⟨front, back, hsplit, hleading, hnearest, hexact⟩ :=
    radix_digits_rounded (.inl rfl) hdigits
  refine ⟨hdigits, front, back, hsplit, hleading, hnearest, hexact.mp ?_⟩
  have hread : ofDigits 16 (Text.ofString "ffffffffffffFC1f") = .ofNat (List.foldl
      (Double.absorb 16) 0 [15, 15, 15, 15, 15, 15, 15, 15, 15, 15, 15, 15, 15, 12, 1, 15]) :=
    ofDigits_eq_ofNat (Nat.le_refl 4) hdigits
  rw [Double.nearestTo_iff, hread]
  decide +kernel

/-- The literal `0x1000000000000081` is rounded twice: its first fifteen digits are in the middle
between two doubles, and so the last one is of no account. -/
theorem radix_rounded_twice :
    List.Forall₂ (Spells 16) (Text.ofString "1000000000000081")
      [1, 0, 0, 0, 0, 0, 0, 0, 0, 0, 0, 0, 0, 0, 8, 1] ∧
    ¬ Double.NearestTo
      (positional 16 [1, 0, 0, 0, 0, 0, 0, 0, 0, 0, 0, 0, 0, 0, 8, 1])
      (ofDigits 16 (Text.ofString "1000000000000081")) ∧
    (Value.string (Text.ofString "0x1000000000000081")).toNumber =
      ofDigits 16 (Text.ofString "1000000000000081") := by
  have hdigits : List.Forall₂ (Spells 16) (Text.ofString "1000000000000081")
      [1, 0, 0, 0, 0, 0, 0, 0, 0, 0, 0, 0, 0, 0, 8, 1] := by decide
  have hread : ofDigits 16 (Text.ofString "1000000000000081") = .ofNat (List.foldl
      (Double.absorb 16) 0 [1, 0, 0, 0, 0, 0, 0, 0, 0, 0, 0, 0, 0, 0, 8, 1]) :=
    ofDigits_eq_ofNat (Nat.le_refl 4) hdigits
  have hbody : (Text.ofString "0x1000000000000081").trimBy isSpace =
      Text.ofString "0x1000000000000081" := by decide +kernel
  refine ⟨hdigits, ?_, ?_⟩
  · rw [Double.nearestTo_iff, hread]
    decide +kernel
  · show toDouble (Text.ofString "0x1000000000000081") = _
    rw [toDouble, hbody]
    rfl

end NumericString

end ScriptSimplifier
