import ScriptSimplifier.Console.Settings
import ScriptSimplifier.Proofs.Numeric.Numerals

/-!
# Integers among the settings

An integer that is read has 64 bits (`integer_bounds`), and every integer of 64 bits is read from
its decimal text (`integer_ofInt`).
-/

namespace ScriptSimplifier

namespace Settings

/-- The number after one more decimal digit. -/
def shift (n : Nat) (b : UInt8) : Nat := 10 * n + (b.toNat - 48)

theorem le_shifted (digits : Text) (n : Nat) : n ≤ digits.foldl shift n := by
  induction digits generalizing n with
  | nil => exact Nat.le_refl n
  | cons b digits ih =>
    have hstep : n ≤ shift n b := by
      rw [shift]
      omega
    exact Nat.le_trans hstep (ih (shift n b))

theorem hexDigit?_digit {b : UInt8} (h : Text.isDigit b = true) :
    (Text.hexDigit? b).filter (· < 10) = some (b.toNat - 48) := by
  have hlow : (Text.ascii '0').toNat = 48 := by decide
  have hhigh : (Text.ascii '9').toNat = 57 := by decide
  rw [Text.hexDigit?, if_pos h]
  simp only [Text.isDigit, Bool.and_eq_true, decide_eq_true_eq, UInt8.le_iff_toNat_le] at h
  simp only [Option.filter_some, decide_eq_true_eq]
  rw [if_pos (by omega)]

theorem ne_underscore {b : UInt8} (h : Text.isDigit b = true) :
    (b == Text.ascii '_') = false := by
  rw [beq_eq_false_iff_ne]
  rintro rfl
  revert h
  decide

/-- Decimal digits are read to the end if the number has 64 bits. -/
theorem magnitude_digits {digits : Text} (hdigits : ∀ b ∈ digits, Text.isDigit b = true) (n : Nat)
    (h : digits.foldl shift n < 0x10000000000000000) :
    magnitude 10 n digits = .ok (digits.foldl shift n) := by
  induction digits generalizing n with
  | nil => rfl
  | cons b digits ih =>
    obtain ⟨hb, hdigits⟩ := List.forall_mem_cons.mp hdigits
    have hsmall : 10 * n + (b.toNat - 48) < 0x10000000000000000 :=
      Nat.lt_of_le_of_lt (le_shifted digits _) h
    rw [magnitude, ne_underscore hb, hexDigit?_digit hb]
    simp only [Bool.false_eq_true, if_false, hsmall, if_true]
    exact ih hdigits (shift n b) h

theorem separated_digits {digits : Text} (hdigits : ∀ b ∈ digits, Text.isDigit b = true)
    {digit : Bool} (h : digits ≠ [] ∨ digit = true) : separated digit digits = true := by
  induction digits generalizing digit with
  | nil => exact h.resolve_left (· rfl)
  | cons b digits ih =>
    obtain ⟨hb, hdigits⟩ := List.forall_mem_cons.mp hdigits
    rw [separated, ne_underscore hb]
    exact ih hdigits (.inr rfl)

/-- The decimal text of a number other than zero does not start with a zero. -/
theorem head?_ofNat {n : Nat} (h : n ≠ 0) : (Text.ofNat n).head? ≠ some (Text.ascii '0') := by
  have hdigit : ∀ d : Fin 10, d.val ≠ 0 → Text.ascii d.val.digitChar ≠ Text.ascii '0' := by decide
  induction n using Nat.strongRecOn with
  | ind n ih =>
    rw [Text.ofNat]
    by_cases hn : n < 10
    · rw [Nat.toDigits_of_lt_base hn]
      simpa using hdigit ⟨n, hn⟩ h
    · have hhigh := ih (n / 10) (by omega) (by omega)
      rw [Text.ofNat] at hhigh
      rw [Nat.toDigits_of_base_le (by omega) (by omega), List.map_append,
        List.head?_append_of_ne_nil _ (by simp)]
      exact hhigh

/-- A number that does not start with a zero is decimal. -/
theorem based_decimal {t : Text} (h : t.head? ≠ some (Text.ascii '0')) : based t = (10, t) := by
  cases t with
  | nil => rfl
  | cons first rest =>
    have hfirst : first ≠ Text.ascii '0' := by simpa using h
    simp [based, hfirst]

theorem natural_ofNat {n : Nat} (h : n < 0x10000000000000000) : natural (Text.ofNat n) = .ok n := by
  by_cases hzero : n = 0
  · subst hzero
    rfl
  · have hdigits : ∀ b ∈ Text.ofNat n, Text.isDigit b = true := fun b hb => isDigit_ofNat hb
    have hvalue : (Text.ofNat n).foldl shift 0 = n := digitsValue_ofNat n
    have hread : magnitude 10 0 (Text.ofNat n) = .ok n := by
      rw [magnitude_digits hdigits 0 (by rwa [hvalue]), hvalue]
    have hne := ofNat_ne_nil n
    rw [natural, based_decimal (head?_ofNat hzero)]
    simp [hne, hread, separated_digits hdigits (.inl hne)]

/-- No sign is a digit. -/
theorem head?_ofNat_ne (n : Nat) {b : UInt8} (hb : Text.isDigit b = false) :
    (Text.ofNat n).head? ≠ some b := by
  intro hhead
  have hdigit := isDigit_ofNat (List.mem_of_mem_head? hhead)
  rw [hb] at hdigit
  cases hdigit

/-- Every integer of 64 bits is read from its decimal text. -/
theorem integer_ofInt {n : Int} (hlow : -2 ^ 63 ≤ n) (hhigh : n < 2 ^ 63) :
    integer (Text.ofInt n) = .ok n := by
  have hread : natural (Text.ofNat n.natAbs) = .ok n.natAbs := natural_ofNat (by omega)
  by_cases hneg : n < 0
  · have habs : -(n.natAbs : Int) = n := by omega
    have hsmall : n.natAbs ≤ 0x8000000000000000 := by omega
    rw [integer, Text.ofInt, if_pos hneg, if_pos List.head?_cons, List.tail_cons, hread]
    exact (if_pos hsmall).trans (congrArg Except.ok habs)
  · have habs : (n.natAbs : Int) = n := by omega
    have hsmall : n.natAbs < 0x8000000000000000 := by omega
    have hminus := head?_ofNat_ne n.natAbs (b := Text.ascii '-') (by decide)
    have hplus := head?_ofNat_ne n.natAbs (b := Text.ascii '+') (by decide)
    rw [integer, Text.ofInt, if_neg hneg, if_neg hminus, if_neg hplus, hread]
    exact (if_pos hsmall).trans (congrArg Except.ok habs)

/-- What is read has 64 bits. -/
theorem integer_bounds {t : Text} {n : Int} (h : integer t = .ok n) :
    -2 ^ 63 ≤ n ∧ n < 2 ^ 63 := by
  rw [integer] at h
  split at h
  · cases hread : natural t.tail with
    | error e =>
      rw [hread] at h
      cases h
    | ok m =>
      rw [hread] at h
      by_cases hm : m ≤ 0x8000000000000000
      · obtain rfl : -(m : Int) = n := Except.ok.inj ((if_pos hm).symm.trans h)
        omega
      · cases (if_neg hm).symm.trans h
  · generalize (if t.head? = some (Text.ascii '+') then t.tail else t) = u at h
    cases hread : natural u with
    | error e =>
      rw [hread] at h
      cases h
    | ok m =>
      rw [hread] at h
      by_cases hm : m < 0x8000000000000000
      · obtain rfl : (m : Int) = n := Except.ok.inj ((if_pos hm).symm.trans h)
        omega
      · cases (if_neg hm).symm.trans h

end Settings

end ScriptSimplifier
