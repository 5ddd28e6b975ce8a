import Mathlib.Data.Int.Bitwise
import Mathlib.Data.Int.ModEq
import Mathlib.Data.Rat.Floor
import ScriptSimplifier.Proofs.Numeric.Radix
import ScriptSimplifier.Value.Operator

/-!
# 32-bit words

The bitwise operators work on the integer part of a number modulo two to the thirty-second.
`Value.wrapDouble` computes it in double precision, and each step there is exact: the integer part
of a double is a double (`trunc_eq`), and the remainder and what is added to a negative one have at
most 33 bits (`wrapDouble_eq`).  A word read as a signed integer has the bits of that integer in
two's complement (`testBit_toInt`), so the operators on words are those on integers
(`word_operators_exact`).
-/

namespace ScriptSimplifier

/-! ## Exact values -/

namespace Double

/-- The number that a finite double is. -/
def value? : Double → Option ℚ
  | .finite negative code => some (if negative then -size code else size code)
  | _ => none

theorem value?_finite {negative : Bool} {code : Magnitude} {n : ℤ}
    (h : signedUnits negative code = n * (one : ℤ)) :
    (finite negative code).value? = some (n : ℚ) := by
  have hone : (one : ℚ) ≠ 0 := Nat.cast_ne_zero.mpr Decimal.one_pos.ne'
  have hvalue : (if negative then -size code else size code) =
      ((signedUnits negative code : ℤ) : ℚ) / one := by
    cases negative with
    | false =>
      have hsigned : signedUnits false code = (binary64.units code : ℤ) := rfl
      rw [if_neg Bool.false_ne_true, hsigned, size, Int.cast_natCast]
    | true =>
      have hsigned : signedUnits true code = -(binary64.units code : ℤ) := rfl
      rw [if_pos rfl, hsigned, size, Int.cast_neg, Int.cast_natCast, neg_div]
  rw [value?, hvalue, h]
  push_cast
  rw [mul_div_cancel_right₀ _ hone]

/-- An integer of at most 53 bits is a double. -/
theorem value?_ofInt {n : ℤ} (h : n.natAbs < 2 ^ 53) : (ofInt n).value? = some (n : ℚ) := by
  obtain ⟨code, hcode, hunits⟩ := ofUnits_small (decide (n < 0)) h
  have hof : ofInt n = ofUnits (decide (n < 0)) (n.natAbs * one) 1 := rfl
  have hcast : ((n.natAbs * one : ℕ) : ℤ) = n.natAbs * (one : ℤ) := Nat.cast_mul ..
  rw [hof, hcode]
  refine value?_finite ?_
  rw [signedUnits, units, hunits, hcast]
  split
  · rename_i hnegative
    have habs : (n.natAbs : ℤ) = -n := Int.ofNat_natAbs_of_nonpos (of_decide_eq_true hnegative).le
    rw [habs, neg_mul, neg_neg]
  · rename_i hnonneg
    have habs : (n.natAbs : ℤ) = n :=
      Int.natAbs_of_nonneg (not_lt.mp fun hlt => hnonneg (decide_eq_true hlt))
    rw [habs]

theorem ofInt_natCast (n : ℕ) : ofInt n = ofNat n := by
  have hsign : decide ((n : ℤ) < 0) = false := decide_eq_false (not_lt.mpr (Int.natCast_nonneg n))
  rw [ofInt, hsign, Int.natAbs_natCast, ofNat]

/-! ## The integer part modulo a power of two -/

/-- The integer part of a double is a double. -/
theorem trunc_eq (negative : Bool) (code : Magnitude) : ∃ whole : Magnitude,
    (finite negative code).trunc = .finite negative whole ∧
      binary64.units whole = binary64.units code / one * one := by
  have htrunc : (finite negative code).trunc =
      ofUnits negative (binary64.units code / one * one) 1 := rfl
  rw [htrunc]
  rcases Nat.lt_or_ge (binary64.units code / one) (2 ^ 53) with hsmall | hlarge
  · exact ofUnits_small negative hsmall
  · -- a magnitude of more than 53 bits is whole
    have hunits : 2 ^ 53 * one ≤ binary64.units code :=
      (Nat.le_div_iff_mul_le Decimal.one_pos).mp hlarge
    have hwhole : binary64.units code / one * one = binary64.units code :=
      Nat.div_mul_cancel (dvd_of_mul_left_dvd (two_dvd_units hunits))
    have hrounds := binary64.rounds_units Nat.one_pos code.val
    rw [Nat.one_mul] at hrounds
    rw [hwhole, ofUnits_eq negative hrounds Nat.one_pos, dif_pos code.isLt]
    exact ⟨code, rfl, rfl⟩

theorem exists_limit : ∃ limit : Magnitude,
    ofNat 0x100000000 = .finite false limit ∧ binary64.units limit = 2 ^ 32 * one := by
  have hpow : 0x100000000 = 2 ^ 32 := by norm_num
  rw [hpow, ofNat_eq_ofUnits]
  exact ofUnits_small false (by norm_num)

/-- The remainder of the integer part has at most 32 bits. -/
theorem trunc_rem (negative : Bool) (code : Magnitude) : ∃ rest : Magnitude,
    (finite negative code).trunc.rem (ofNat 0x100000000) = .finite negative rest ∧
      binary64.units rest = binary64.units code / one % 2 ^ 32 * one := by
  obtain ⟨whole, hwhole, hunits⟩ := trunc_eq negative code
  obtain ⟨limit, hlimit, hlimit'⟩ := exists_limit
  have hne : limit.val ≠ 0 := by
    intro hzero
    have hone := Decimal.one_pos
    rw [hzero, binary64.units_zero] at hlimit'
    omega
  have hbound : binary64.units code / one % 2 ^ 32 < 2 ^ 53 :=
    (Nat.mod_lt _ (Nat.two_pow_pos 32)).trans (by norm_num)
  rw [hwhole, hlimit, rem, if_neg hne, units, units, hunits, hlimit', Nat.mul_mod_mul_right]
  exact ofUnits_small negative hbound

/-- A negative remainder is brought into the range of words without rounding. -/
theorem add_limit {rest : Magnitude} {n word : ℕ} (hsum : n + word = 2 ^ 32) (hword : 0 < word)
    (hrest : binary64.units rest = n * one) : ∃ code : Magnitude,
      (finite true rest).add (ofNat 0x100000000) = .finite false code ∧
        binary64.units code = word * one := by
  obtain ⟨limit, hlimit, hunits⟩ := exists_limit
  have hsigned : signedUnits true rest + signedUnits false limit = ((word * one : ℕ) : ℤ) := by
    show -(binary64.units rest : ℤ) + (binary64.units limit : ℤ) = _
    rw [hrest, hunits, ← hsum]
    push_cast
    ring
  have hpos : 0 < ((word * one : ℕ) : ℤ) := Int.natCast_pos.mpr (Nat.mul_pos hword Decimal.one_pos)
  have hadd : (finite true rest).add (finite false limit) = ofUnits false (word * one) 1 := by
    rw [add, hsigned, if_neg hpos.ne', decide_eq_false (not_lt.mpr hpos.le), Int.natAbs_natCast]
  rw [hlimit, hadd]
  exact ofUnits_small false ((Nat.le_add_left word n).trans_lt (hsum.trans_lt (by norm_num)))

end Double

/-- The integer part of a number, which is nearer to zero. -/
def towardZero (x : ℚ) : ℤ := if x < 0 then ⌈x⌉ else ⌊x⌋

namespace Value

open Double

/-- The double that becomes a word is the integer part modulo two to the thirty-second. -/
theorem wrapDouble_eq (negative : Bool) (code : Magnitude) : ∃ (sign : Bool) (word : Magnitude),
    wrapDouble (.finite negative code) = .finite sign word ∧
      signedUnits sign word = (Double.finite negative code).toInt % 2 ^ 32 * (one : ℤ) := by
  obtain ⟨rest, hrest, hunits⟩ := trunc_rem negative code
  -- a negative remainder is brought into range by adding the modulus
  have hwrap : wrapDouble (.finite negative code) =
      if decide (signedUnits negative rest < 0) then
        (Double.finite negative rest).add (.ofNat 0x100000000)
      else .finite negative rest := by
    rw [wrapDouble, hrest]
    rfl
  have hint : (Double.finite negative code).toInt = if negative then
      -((binary64.units code / one : ℕ) : ℤ) else (binary64.units code / one : ℕ) := rfl
  rw [hwrap, hint]
  generalize binary64.units code / one = whole at *
  have hrange : whole % 2 ^ 32 < 2 ^ 32 := Nat.mod_lt whole (Nat.two_pow_pos 32)
  cases negative with
  | false =>
    have hsigned : signedUnits false rest = (binary64.units rest : ℤ) := rfl
    have hnonneg : ¬ signedUnits false rest < 0 := by omega
    refine ⟨false, rest, by rw [decide_eq_false hnonneg]; rfl, ?_⟩
    have hmod : ((whole % 2 ^ 32 : ℕ) : ℤ) = (whole : ℤ) % 2 ^ 32 := by omega
    rw [hsigned, hunits, if_neg Bool.false_ne_true, Nat.cast_mul, hmod]
  | true =>
    have hsigned : signedUnits true rest = -(binary64.units rest : ℤ) := rfl
    rcases Nat.eq_zero_or_pos (whole % 2 ^ 32) with hzero | hpos
    · -- the remainder is the negative zero
      rw [hzero, Nat.zero_mul] at hunits
      have hnonneg : ¬ signedUnits true rest < 0 := by omega
      refine ⟨true, rest, by rw [decide_eq_false hnonneg]; rfl, ?_⟩
      have hmod : -(whole : ℤ) % 2 ^ 32 = 0 := by omega
      rw [hsigned, hunits, if_pos rfl, hmod, Nat.cast_zero, neg_zero, zero_mul]
    · obtain ⟨word, hword, hword'⟩ := add_limit
        (Nat.add_sub_cancel' hrange.le) (Nat.sub_pos_of_lt hrange) hunits
      have hnegative : signedUnits true rest < 0 := by
        have := Nat.mul_pos hpos Decimal.one_pos
        omega
      refine ⟨false, word, by rw [decide_eq_true hnegative, if_pos rfl, hword], ?_⟩
      have hmod : -(whole : ℤ) % 2 ^ 32 = ((2 ^ 32 - whole % 2 ^ 32 : ℕ) : ℤ) := by omega
      show (binary64.units word : ℤ) = _
      rw [hword', if_pos rfl, hmod, Nat.cast_mul]

/-- A double that is an integer has that integer part. -/
theorem toInt_of_signedUnits {negative : Bool} {code : Magnitude} {n : ℤ}
    (h : signedUnits negative code = n * (one : ℤ)) : (Double.finite negative code).toInt = n := by
  have hone : (one : ℤ) ≠ 0 := Int.natCast_ne_zero.mpr Decimal.one_pos.ne'
  cases negative with
  | false =>
    have hunits : (binary64.units code : ℤ) = n * one := h
    show ((binary64.units code / one : ℕ) : ℤ) = n
    rw [Int.natCast_ediv, hunits, Int.mul_ediv_cancel _ hone]
  | true =>
    have hunits : -(binary64.units code : ℤ) = n * one := h
    have hunits' : (binary64.units code : ℤ) = -n * one := by rw [neg_mul, ← hunits, neg_neg]
    show -((binary64.units code / one : ℕ) : ℤ) = n
    rw [Int.natCast_ediv, hunits', Int.mul_ediv_cancel _ hone, neg_neg]

theorem towardZero_exact {x : Double} {q : ℚ} (h : x.value? = some q) : towardZero q = x.toInt := by
  cases x with
  | nan => cases h
  | inf negative => cases h
  | finite negative code =>
    have hfloor : ⌊size code⌋ = ((binary64.units code / one : ℕ) : ℤ) := by
      rw [size, Rat.floor_natCast_div_natCast, Int.natCast_ediv]
    have hnonneg : 0 ≤ size code := div_nonneg (Nat.cast_nonneg _) (Nat.cast_nonneg _)
    obtain rfl := Option.some.inj h
    cases negative with
    | false =>
      show (if size code < 0 then ⌈size code⌉ else ⌊size code⌋) = _
      rw [if_neg (not_lt.mpr hnonneg), hfloor]
      rfl
    | true =>
      show (if -size code < 0 then ⌈-size code⌉ else ⌊-size code⌋) = _
      have hint : (Double.finite true code).toInt = -((binary64.units code / one : ℕ) : ℤ) := rfl
      rw [hint, ← hfloor, Int.ceil_neg]
      split
      · rfl
      · -- the magnitude is zero
        have hzero : size code = 0 := by linarith
        rw [hzero]
        simp

/-! ## Words as integers -/

/-- An integer is made of the lower 32 bits of another one, the highest of them being the sign. -/
structure Signed (n m : ℤ) : Prop where
  congruent : n % 2 ^ 32 = m % 2 ^ 32
  low : -2 ^ 31 ≤ n
  high : n < 2 ^ 31

theorem signed_word (word : UInt32) : Signed word.toInt32.toInt word.toNat := by
  have hint : word.toInt32.toInt = word.toBitVec.toInt := rfl
  have hnat : word.toNat = word.toBitVec.toNat := rfl
  rw [hint, hnat]
  have hbmod := BitVec.toInt_eq_toNat_bmod word.toBitVec
  have hlt := word.toBitVec.isLt
  refine ⟨?_, ?_, ?_⟩
  all_goals
    rw [hbmod, Int.bmod]
    split
    all_goals omega

/-- A word is the integer part of the value modulo two to the thirty-second, and so is the double
that it is made of. -/
theorem toUInt32_finite {v : Value} {negative : Bool} {code : Magnitude}
    (h : v.toNumber = .finite negative code) :
    (v.toUInt32.toNat : ℤ) = v.toNumber.toInt % 2 ^ 32 ∧
      (wrapDouble v.toNumber).value? = some ((v.toNumber.toInt % 2 ^ 32 : ℤ) : ℚ) := by
  obtain ⟨sign, word, hword, hsigned⟩ := wrapDouble_eq negative code
  have hint := toInt_of_signedUnits hsigned
  have hrange : (Double.finite negative code).toInt % 2 ^ 32 < 2 ^ 32 :=
    Int.emod_lt_of_pos _ (by norm_num)
  have hnonneg : 0 ≤ (Double.finite negative code).toInt % 2 ^ 32 :=
    Int.emod_nonneg _ (by norm_num)
  have hvalue : v.toUInt32 = ((wrapDouble (.finite negative code)).toInt.toNat).toUInt32 := by
    rw [toUInt32, h]
  rw [h]
  refine ⟨?_, by rw [hword]; exact value?_finite hsigned⟩
  rw [hvalue, hword, hint, Nat.toUInt32, UInt32.toNat_ofNat']
  omega

/-- The bits of a word are those of the integer in two's complement. -/
theorem testBit_toInt {w : ℕ} (x : BitVec w) (i : ℕ) :
    Int.testBit x.toInt i = if i < w then x.getLsbD i else x.msb := by
  cases hmsb : x.msb with
  | false =>
    have hint : x.toInt = Int.ofNat x.toNat := BitVec.toInt_eq_toNat_of_msb hmsb
    rw [hint]
    show x.toNat.testBit i = _
    split
    · rfl
    · exact BitVec.getLsbD_of_ge x i (by omega)
  | true =>
    have hint : x.toInt = Int.negSucc (~~~x).toNat := by
      have hle := x.isLt
      rw [BitVec.toInt_eq_msb_cond, hmsb, if_pos rfl, BitVec.toNat_not, Int.negSucc_eq]
      omega
    rw [hint]
    show (!(~~~x).getLsbD i) = _
    rw [BitVec.getLsbD_not]
    split
    · rename_i hi
      simp [hi]
    · rename_i hi
      simp [hi]

/-- An integer is known by its bits. -/
theorem eq_of_testBit {n m : ℤ} (h : ∀ i, Int.testBit n i = Int.testBit m i) : n = m := by
  have hhigh : ∀ a b : ℕ, ∃ i, a.testBit i = false ∧ b.testBit i = false := by
    intro a b
    refine ⟨a + b, Nat.testBit_lt_two_pow ?_, Nat.testBit_lt_two_pow ?_⟩
    · exact (Nat.le_add_right a b).trans_lt Nat.lt_two_pow_self
    · exact (Nat.le_add_left b a).trans_lt Nat.lt_two_pow_self
  cases n with
  | ofNat a =>
    cases m with
    | ofNat b => exact congrArg _ (Nat.eq_of_testBit_eq h)
    | negSucc b =>
      obtain ⟨i, ha, hb⟩ := hhigh a b
      have hi : a.testBit i = !b.testBit i := h i
      rw [ha, hb] at hi
      cases hi
  | negSucc a =>
    cases m with
    | ofNat b =>
      obtain ⟨i, ha, hb⟩ := hhigh a b
      have hi : (!a.testBit i) = b.testBit i := h i
      rw [ha, hb] at hi
      cases hi
    | negSucc b =>
      exact congrArg _ (Nat.eq_of_testBit_eq fun i => Bool.not_inj (h i))

section Bitwise

variable {w : ℕ} (x y : BitVec w)

theorem toInt_xor : (x ^^^ y).toInt = Int.xor x.toInt y.toInt := by
  refine eq_of_testBit fun i => ?_
  rw [Int.testBit_lxor, testBit_toInt, testBit_toInt, testBit_toInt]
  split
  · exact BitVec.getLsbD_xor
  · exact BitVec.msb_xor

theorem toInt_or : (x ||| y).toInt = Int.lor x.toInt y.toInt := by
  refine eq_of_testBit fun i => ?_
  rw [Int.testBit_lor, testBit_toInt, testBit_toInt, testBit_toInt]
  split
  · exact BitVec.getLsbD_or
  · exact BitVec.msb_or

theorem toInt_and : (x &&& y).toInt = Int.land x.toInt y.toInt := by
  refine eq_of_testBit fun i => ?_
  rw [Int.testBit_land, testBit_toInt, testBit_toInt, testBit_toInt]
  split
  · exact BitVec.getLsbD_and
  · exact BitVec.msb_and

theorem toInt_not (x : BitVec 32) : (~~~x).toInt = Int.lnot x.toInt := by
  refine eq_of_testBit fun i => ?_
  rw [Int.testBit_lnot, testBit_toInt, testBit_toInt]
  split
  · rename_i hi
    rw [BitVec.getLsbD_not, decide_eq_true hi, Bool.true_and]
  · simp

end Bitwise

/-! ## Shifts -/

/-- How far a word shifts. -/
theorem toNat_and_31 (word : UInt32) : (word &&& 31).toNat = word.toNat % 32 := by
  rw [UInt32.toNat_and]
  exact Nat.and_two_pow_sub_one_eq_mod word.toNat 5

theorem signed_shiftLeft (a b : UInt32) :
    Signed (a <<< (b &&& 31)).toInt32.toInt (a.toInt32.toInt * 2 ^ (b.toNat % 32)) := by
  obtain ⟨hcongruent, hlow, hhigh⟩ := signed_word (a <<< (b &&& 31))
  refine ⟨hcongruent.trans ?_, hlow, hhigh⟩
  have hshift : ((a <<< (b &&& 31)).toNat : ℤ) = a.toNat * 2 ^ (b.toNat % 32) % 2 ^ 32 := by
    rw [UInt32.toNat_shiftLeft, toNat_and_31, Nat.mod_mod, Nat.shiftLeft_eq]
    push_cast
    rfl
  rw [hshift, Int.emod_emod_of_dvd _ (Int.dvd_refl _)]
  exact (Int.ModEq.mul_right _ (signed_word a).congruent).symm

theorem toInt_shiftRight (a b : UInt32) :
    (a.toInt32 >>> (b &&& 31).toInt32).toInt = ⌊(a.toInt32.toInt : ℚ) / 2 ^ (b.toNat % 32)⌋ := by
  have hamount : ((b &&& 31).toBitVec.smod 32).toNat = b.toNat % 32 := by
    have hnat : (b &&& 31).toBitVec.toNat = b.toNat % 32 := toNat_and_31 b
    generalize (b &&& 31).toBitVec = amount at hnat
    have hmsb : amount.msb = false := by
      rw [BitVec.msb_eq_false_iff_two_mul_lt]
      omega
    have hlimit : (32 : BitVec 32).msb = false := by decide
    rw [BitVec.smod, hmsb, hlimit]
    show (amount.umod 32).toNat = _
    rw [BitVec.umod_eq, BitVec.toNat_umod, hnat]
    exact Nat.mod_mod b.toNat 32
  have hbits : (a.toInt32 >>> (b &&& 31).toInt32).toInt =
      (a.toBitVec.sshiftRight ((b &&& 31).toBitVec.smod 32).toNat).toInt := rfl
  have hword : a.toBitVec.toInt = a.toInt32.toInt := rfl
  have hcast : (2 ^ (b.toNat % 32) : ℚ) = ((2 ^ (b.toNat % 32) : ℕ) : ℚ) := by push_cast; rfl
  rw [hbits, hamount, BitVec.toInt_sshiftRight, hword, Int.shiftRight_eq_div_pow, hcast,
    Rat.floor_intCast_div_natCast]

theorem toNat_shiftRight (a b : UInt32) :
    ((a >>> (b &&& 31)).toNat : ℤ) = ⌊(a.toNat : ℚ) / 2 ^ (b.toNat % 32)⌋ := by
  have hcast : (2 ^ (b.toNat % 32) : ℚ) = ((2 ^ (b.toNat % 32) : ℕ) : ℚ) := by push_cast; rfl
  rw [UInt32.toNat_shiftRight, toNat_and_31, Nat.mod_mod, Nat.shiftRight_eq_div_pow, hcast,
    Rat.floor_natCast_div_natCast, Int.natCast_ediv]

/-! ## Operators -/

/-- A result is a number that is exactly an integer. -/
def IsInteger (result : Option Value) (n : ℤ) : Prop :=
  result = some (.number (.ofInt n)) ∧ (Double.ofInt n).value? = some (n : ℚ)

theorem isInteger_signed (bits : UInt32) :
    IsInteger (some (signedNumber bits)) bits.toInt32.toInt := by
  obtain ⟨-, hlow, hhigh⟩ := signed_word bits
  exact ⟨rfl, value?_ofInt (by omega)⟩

section Operators

variable {l r v : Value} {spelling : Text} {n : ℤ}

theorem isInteger_binary (operator : BinaryOp) (h : BinaryOp.ofSpelling? spelling = some operator)
    (hresult : IsInteger (some (operator.apply l r)) n) :
    IsInteger (evalBinary? spelling l r) n := by
  rwa [evalBinary?, h, Option.map_some]

theorem isInteger_unary (operator : UnaryOp) (h : UnaryOp.ofSpelling? spelling = some operator)
    (hresult : IsInteger (some (operator.apply v)) n) : IsInteger (evalUnary? spelling v) n := by
  rwa [evalUnary?, h, Option.map_some]

end Operators

/-- What a value is as a word, unsigned and signed: its integer part modulo two to the
thirty-second, computed through a double that is exactly this word, and zero if the value is no
finite number. -/
theorem word_spec (v : Value) :
    (∀ q, v.toNumber.value? = some q →
      (v.toUInt32.toNat : ℤ) = towardZero q % 2 ^ 32 ∧ Signed v.toInt32.toInt (towardZero q) ∧
        (wrapDouble v.toNumber).value? = some (v.toUInt32.toNat : ℚ)) ∧
    (v.toNumber.value? = none → v.toUInt32.toNat = 0 ∧ v.toInt32.toInt = 0) := by
  constructor
  · intro q hq
    rw [towardZero_exact hq]
    cases hv : v.toNumber with
    | nan => rw [hv] at hq; cases hq
    | inf negative => rw [hv] at hq; cases hq
    | finite negative code =>
      obtain ⟨hword, hexact⟩ := toUInt32_finite hv
      obtain ⟨hcongruent, hlow, hhigh⟩ := signed_word v.toUInt32
      rw [hv] at hword hexact
      refine ⟨hword, ⟨?_, hlow, hhigh⟩, ?_⟩
      · rw [hword, Int.emod_emod_of_dvd _ (Int.dvd_refl _)] at hcongruent
        exact hcongruent
      · rw [hexact, ← hword, Int.cast_natCast]
  · intro hnone
    have hzero : v.toUInt32 = 0 := by
      cases hv : v.toNumber with
      | nan => rw [toUInt32, hv]
      | inf negative => rw [toUInt32, hv]
      | finite negative code => rw [hv] at hnone; cases hnone
    rw [toInt32, hzero]
    decide

/-- The bitwise operators work on words, and each result is exactly an integer.

A word is the integer part of the number that the value is converted to, modulo two to the
thirty-second; it is zero for what is no finite number.  The last conversion of a double is always
that of an integer in the range of words.  The operators without a shift are those of two's
complement on the signed words.  A shift is by the lower five bits of the right word; to the left it
multiplies, and only the lower 32 bits are kept, and to the right it divides, downward. -/
theorem word_operators_exact (l r : Value) :
    ((∀ q, l.toNumber.value? = some q →
      (l.toUInt32.toNat : ℤ) = towardZero q % 2 ^ 32 ∧ Signed l.toInt32.toInt (towardZero q) ∧
        (wrapDouble l.toNumber).value? = some (l.toUInt32.toNat : ℚ)) ∧
    (l.toNumber.value? = none → l.toUInt32.toNat = 0 ∧ l.toInt32.toInt = 0)) ∧
    IsInteger (evalBinary? "^" l r) (Int.xor l.toInt32.toInt r.toInt32.toInt) ∧
    IsInteger (evalBinary? "|" l r) (Int.lor l.toInt32.toInt r.toInt32.toInt) ∧
    IsInteger (evalBinary? "&" l r) (Int.land l.toInt32.toInt r.toInt32.toInt) ∧
    IsInteger (evalUnary? "~" l) (Int.lnot l.toInt32.toInt) ∧
    (∃ n, Signed n (l.toInt32.toInt * 2 ^ (r.toUInt32.toNat % 32)) ∧
      IsInteger (evalBinary? "<<" l r) n) ∧
    IsInteger (evalBinary? ">>" l r) ⌊(l.toInt32.toInt : ℚ) / 2 ^ (r.toUInt32.toNat % 32)⌋ ∧
    IsInteger (evalBinary? ">>>" l r) ⌊(l.toUInt32.toNat : ℚ) / 2 ^ (r.toUInt32.toNat % 32)⌋ := by
  refine ⟨word_spec l, ?_, ?_, ?_, ?_, ⟨_, signed_shiftLeft _ _, ?_⟩, ?_, ?_⟩
  · have hbits : (l.toUInt32 ^^^ r.toUInt32).toInt32.toInt =
        Int.xor l.toInt32.toInt r.toInt32.toInt := toInt_xor _ _
    rw [← hbits]
    exact isInteger_binary .bitXor (by decide) (isInteger_signed _)
  · have hbits : (l.toUInt32 ||| r.toUInt32).toInt32.toInt =
        Int.lor l.toInt32.toInt r.toInt32.toInt := toInt_or _ _
    rw [← hbits]
    exact isInteger_binary .bitOr (by decide) (isInteger_signed _)
  · have hbits : (l.toUInt32 &&& r.toUInt32).toInt32.toInt =
        Int.land l.toInt32.toInt r.toInt32.toInt := toInt_and _ _
    rw [← hbits]
    exact isInteger_binary .bitAnd (by decide) (isInteger_signed _)
  · have hbits : (~~~l.toUInt32).toInt32.toInt = Int.lnot l.toInt32.toInt := toInt_not _
    rw [← hbits]
    exact isInteger_unary .complement (by decide) (isInteger_signed _)
  · exact isInteger_binary .shiftLeft (by decide) (isInteger_signed _)
  · have hshift : (l.toInt32 >>> (r.toUInt32 &&& 31).toInt32).toInt =
        ⌊(l.toInt32.toInt : ℚ) / 2 ^ (r.toUInt32.toNat % 32)⌋ := toInt_shiftRight _ _
    -- the result of the signed shift fits in a word, so it is exact as a number
    have hlow := Int32.le_toInt (l.toInt32 >>> (r.toUInt32 &&& 31).toInt32)
    have hhigh := Int32.toInt_lt (l.toInt32 >>> (r.toUInt32 &&& 31).toInt32)
    rw [← hshift]
    exact isInteger_binary .shiftRight (by decide) ⟨rfl, value?_ofInt (by omega)⟩
  · have hshift := toNat_shiftRight l.toUInt32 r.toUInt32
    have hhigh := UInt32.toNat_lt (l.toUInt32 >>> (r.toUInt32 &&& 31))
    rw [← hshift]
    refine isInteger_binary .shiftRightZero (by decide) ⟨?_, value?_ofInt (by omega)⟩
    rw [ofInt_natCast]
    rfl

/-- The string `-4294967297.75`, shifted by 33 places. -/
theorem word_operators_exact_negative_fraction :
    (Value.string (Text.ofString "-4294967297.75")).toNumber.value? = some (-4294967297.75) ∧
    ((Value.string (Text.ofString "-4294967297.75")).toUInt32.toNat : ℤ) =
      towardZero (-4294967297.75) % 2 ^ 32 ∧
    IsInteger (evalBinary? "^" (.string (Text.ofString "-4294967297.75")) (.number (.ofNat 33)))
      (-34) ∧
    IsInteger (evalBinary? ">>>" (.string (Text.ofString "-4294967297.75")) (.number (.ofNat 33)))
      2147483647 := by
  have hexact : (Value.string (Text.ofString "-4294967297.75")).toNumber.value? =
      some (-4294967297.75) := by
    decide +kernel
  obtain ⟨⟨hword, -⟩, hxor, -, -, -, -, -, hshift⟩ := word_operators_exact
    (.string (Text.ofString "-4294967297.75")) (.number (.ofNat 33))
  have hleft : (Value.string (Text.ofString "-4294967297.75")).toUInt32 = 4294967295 := by
    decide +kernel
  have hright : (Value.number (.ofNat 33)).toUInt32 = 33 := by decide +kernel
  have hbits : Int.xor (4294967295 : UInt32).toInt32.toInt (33 : UInt32).toInt32.toInt = -34 := by
    decide
  have hfloor : ⌊((4294967295 : UInt32).toNat : ℚ) / 2 ^ ((33 : UInt32).toNat % 32)⌋ =
      2147483647 := by
    decide +kernel
  rw [toInt32, toInt32, hleft, hright, hbits] at hxor
  rw [hleft, hright, hfloor] at hshift
  exact ⟨hexact, (hword _ hexact).1, hxor, hshift⟩

end Value

end ScriptSimplifier
