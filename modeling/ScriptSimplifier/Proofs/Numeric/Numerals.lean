import ScriptSimplifier.Proofs.Numeric.Shortest
import ScriptSimplifier.Proofs.Text.Quoting
import ScriptSimplifier.Numeric.Numeral
import ScriptSimplifier.Syntax.Label

/-!
# Reading the text of a number

The text of a decimal is a numeral in each of its layouts, and scanning takes all of it and nothing
of what follows (`scan?_write`).  The numeral denotes a decimal of the same value, so the text of a
finite number, whatever its sign, reads as the number (`numberText_spec`).
-/

namespace ScriptSimplifier

/-! ## Digits -/

theorem isDigit_ofNat {n : Nat} {b : UInt8} (h : b ∈ Text.ofNat n) : Text.isDigit b = true := by
  obtain ⟨c, hc, rfl⟩ := List.mem_map.mp h
  have hdigit := Nat.isDigit_of_mem_toDigits (by omega) (by omega) hc
  simp only [Char.isDigit, Bool.and_eq_true, decide_eq_true_eq, UInt32.le_iff_toNat_le] at hdigit
  have hnat : c.val.toNat = c.toNat := rfl
  have hlow : '0'.val.toNat = 48 := rfl
  have hhigh : '9'.val.toNat = 57 := rfl
  have hzero : (Text.ascii '0').toNat = 48 := by decide
  have hnine : (Text.ascii '9').toNat = 57 := by decide
  simp only [Text.isDigit, Bool.and_eq_true, decide_eq_true_eq, UInt8.le_iff_toNat_le,
    toNat_ascii c]
  omega

theorem ofNat_ne_nil (n : Nat) : Text.ofNat n ≠ [] := by
  simp [Text.ofNat]

theorem isDigit_zeros {n : Nat} {b : UInt8} (h : b ∈ List.replicate n (Text.ascii '0')) :
    Text.isDigit b = true := by
  rw [(List.mem_replicate.mp h).2]
  decide

theorem digitsValue_append (t u : Text) :
    Text.digitsValue (t ++ u) = Text.digitsValue t * 10 ^ u.length + Text.digitsValue u := by
  have hfold : ∀ start, u.foldl (fun value b => 10 * value + (b.toNat - 48)) start =
      start * 10 ^ u.length + Text.digitsValue u := by
    induction u with
    | nil => simp [Text.digitsValue]
    | cons b u ih =>
      intro start
      rw [Text.digitsValue, List.foldl_cons, List.foldl_cons, ih, ih, List.length_cons,
        Nat.pow_succ]
      ring
  rw [Text.digitsValue, List.foldl_append, hfold]
  rfl

theorem digitsValue_zeros (n : Nat) :
    Text.digitsValue (List.replicate n (Text.ascii '0')) = 0 := by
  induction n with
  | zero => rfl
  | succ n ih =>
    have hzero : (Text.ascii '0').toNat = 48 := by decide
    simpa [Text.digitsValue, List.replicate_succ, hzero] using ih

/-- The digits of a number spell the number. -/
theorem digitsValue_ofNat (n : Nat) : Text.digitsValue (Text.ofNat n) = n := by
  have hdigit : ∀ d : Fin 10, Text.digitsValue [Text.ascii d.val.digitChar] = d.val := by decide
  induction n using Nat.strongRecOn with
  | ind n ih =>
    rw [Text.ofNat]
    by_cases hn : n < 10
    · rw [Nat.toDigits_of_lt_base hn]
      exact hdigit ⟨n, hn⟩
    · have hhigh : Text.digitsValue ((Nat.toDigits 10 (n / 10)).map Text.ascii) = n / 10 :=
        ih (n / 10) (by omega)
      have hlow : Text.digitsValue [Text.ascii (n % 10).digitChar] = n % 10 :=
        hdigit ⟨n % 10, Nat.mod_lt n (by omega)⟩
      rw [Nat.toDigits_of_base_le (by omega) (by omega), List.map_append, digitsValue_append,
        hhigh, List.map_singleton, hlow]
      simp [Nat.div_add_mod']

namespace Numeral

/-! ## Scanning -/

/-- What may follow a numeral: nothing, or a byte that does not continue it. -/
def Ends (rest : Text) : Prop :=
  ∀ b ∈ rest.head?, Text.isIdentifierPart b = false ∧ b ≠ Text.ascii '.'

theorem splitDigits_append {digits rest : Text} (hdigits : ∀ b ∈ digits, Text.isDigit b = true)
    (hrest : ∀ b ∈ rest.head?, Text.isDigit b = false) :
    splitDigits (digits ++ rest) = (digits, rest) := by
  rw [splitDigits, List.takeWhile_append_of_pos hdigits, List.dropWhile_append_of_pos hdigits]
  cases rest with
  | nil => simp
  | cons b rest =>
    have hb : Text.isDigit b = false := hrest b rfl
    simp [hb]

theorem Ends.isDigit {rest : Text} (h : Ends rest) : ∀ b ∈ rest.head?, Text.isDigit b = false := by
  intro b hb
  have := (h b hb).1
  simp only [Text.isIdentifierPart, Bool.or_eq_false_iff] at this
  exact this.2

/-- Where no exponent stands. -/
theorem scanExponent_none {rest : Text} (h : Ends rest) : scanExponent rest = (0, rest) := by
  cases rest with
  | nil => rfl
  | cons b rest =>
    have hpart := (h b rfl).1
    have hsmall : b ≠ Text.ascii 'e' := by
      rintro rfl
      exact absurd hpart (by decide)
    have hlarge : b ≠ Text.ascii 'E' := by
      rintro rfl
      exact absurd hpart (by decide)
    simp [scanExponent, hsmall, hlarge]

/-- An exponent with its sign. -/
theorem scanExponent_sign {rest : Text} (h : Ends rest) (exponent : Int) :
    scanExponent ((if exponent < 0 then Text.ofString "e-" else Text.ofString "e+") ++
      Text.ofNat exponent.natAbs ++ rest) = (exponent, rest) := by
  have hsplit : splitDigits (Text.ofNat exponent.natAbs ++ rest) =
      (Text.ofNat exponent.natAbs, rest) := splitDigits_append (fun _ => isDigit_ofNat) h.isDigit
  have hnonempty : (Text.ofNat exponent.natAbs).isEmpty = false := by
    simp [ofNat_ne_nil]
  have hminus : Text.ofString "e-" = [Text.ascii 'e', Text.ascii '-'] := by decide
  have hplus : Text.ofString "e+" = [Text.ascii 'e', Text.ascii '+'] := by decide
  have hdiffer : (Text.ascii '+' == Text.ascii '-') = false := by decide
  split
  · simp [hminus, scanExponent, scanExponentDigits?, hsplit, hnonempty, digitsValue_ofNat,
      -Nat.cast_natAbs]
    omega
  · simp [hplus, hdiffer, scanExponent, scanExponentDigits?, hsplit, hnonempty, digitsValue_ofNat,
      -Nat.cast_natAbs]
    omega

/-- Digits with what follows them, unless it is a point. -/
theorem scan?_whole {whole tail rest : Text} {exponent : Int}
    (hwhole : ∀ b ∈ whole, Text.isDigit b = true) (hne : whole ≠ [])
    (htail : ∀ b ∈ tail.head?, Text.isDigit b = false ∧ b ≠ Text.ascii '.')
    (hexponent : scanExponent tail = (exponent, rest)) :
    scan? (whole ++ tail) = some (⟨whole, [], exponent⟩, rest) := by
  have hsplit : splitDigits (whole ++ tail) = (whole, tail) :=
    splitDigits_append hwhole fun b hb => (htail b hb).1
  have hempty : whole.isEmpty = false := by simpa using hne
  rw [scan?, hsplit]
  cases tail with
  | nil => simp [hempty, hexponent]
  | cons b tail =>
    have hpoint : (b == Text.ascii '.') = false := by simpa using (htail b rfl).2
    simp [hempty, hpoint, hexponent]

/-- Digits on one side of a point or on both, with what follows them. -/
theorem scan?_pointed {whole fraction tail rest : Text} {exponent : Int}
    (hwhole : ∀ b ∈ whole, Text.isDigit b = true) (hne : whole ≠ [] ∨ fraction ≠ [])
    (hfraction : ∀ b ∈ fraction, Text.isDigit b = true)
    (htail : ∀ b ∈ tail.head?, Text.isDigit b = false)
    (hexponent : scanExponent tail = (exponent, rest)) :
    scan? (whole ++ Text.ascii '.' :: (fraction ++ tail)) =
      some (⟨whole, fraction, exponent⟩, rest) := by
  have hpoint : Text.isDigit (Text.ascii '.') = false := by decide
  have hsplit : splitDigits (whole ++ Text.ascii '.' :: (fraction ++ tail)) =
      (whole, Text.ascii '.' :: (fraction ++ tail)) :=
    splitDigits_append hwhole (by simp [hpoint])
  have hsplit' : splitDigits (fraction ++ tail) = (fraction, tail) :=
    splitDigits_append hfraction htail
  have hempty : (whole.isEmpty && fraction.isEmpty) = false := by
    rw [Bool.and_eq_false_iff]
    simpa using hne
  simp only [scan?, hsplit, beq_self_eq_true, if_true, hsplit', hempty, Bool.false_eq_true,
    if_false, hexponent]

/-! ## Written decimals -/

/-- A text is a numeral that denotes a decimal, whatever follows it. -/
def Reads (text : Text) (d : Decimal) : Prop :=
  ∃ n : Numeral, (∀ rest, Ends rest → scan? (text ++ rest) = some (n, rest)) ∧ n.toDecimal = d

section Layouts

variable {digits : Text} (hdigits : ∀ b ∈ digits, Text.isDigit b = true) (hne : digits ≠ [])

include hdigits hne

omit hne in
theorem drop_digits (k : Nat) : ∀ b ∈ digits.drop k, Text.isDigit b = true :=
  fun b hb => hdigits b (List.mem_of_mem_drop hb)

theorem take_digits {k : Nat} (hk : 0 < k) :
    (∀ b ∈ digits.take k, Text.isDigit b = true) ∧ digits.take k ≠ [] :=
  ⟨fun b hb => hdigits b (List.mem_of_mem_take hb), by simp [hne, hk.ne']⟩

/-- Zeros behind the digits. -/
theorem reads_integral (k : Nat) : Reads (digits ++ List.replicate k (Text.ascii '0'))
    ⟨Text.digitsValue digits * 10 ^ k, 0⟩ := by
  refine ⟨⟨digits ++ List.replicate k (Text.ascii '0'), [], 0⟩, fun rest hrest => ?_, ?_⟩
  · exact scan?_whole (List.forall_mem_append.mpr ⟨hdigits, fun _ => isDigit_zeros⟩)
      (by simp [hne]) (fun b hb => ⟨hrest.isDigit b hb, (hrest b hb).2⟩) (scanExponent_none hrest)
  · simp [toDecimal, digitsValue_append, digitsValue_zeros]

/-- A point between the digits. -/
theorem reads_pointed {k : Nat} (hk : 0 < k) :
    Reads (digits.take k ++ Text.ascii '.' :: digits.drop k)
      ⟨Text.digitsValue digits, -((digits.length - k : Nat) : Int)⟩ := by
  obtain ⟨htake, htake'⟩ := take_digits hdigits hne hk
  refine ⟨⟨digits.take k, digits.drop k, 0⟩, fun rest hrest => ?_, ?_⟩
  · rw [List.append_assoc, List.cons_append]
    exact scan?_pointed htake (.inl htake') (drop_digits hdigits k) hrest.isDigit
      (scanExponent_none hrest)
  · simp [toDecimal]

omit hne in
/-- Zeros before the digits. -/
theorem reads_fraction (k : Nat) :
    Reads (Text.ofString "0." ++ List.replicate k (Text.ascii '0') ++ digits)
      ⟨Text.digitsValue digits, -((k + digits.length : Nat) : Int)⟩ := by
  have hstart : Text.ofString "0." = [Text.ascii '0', Text.ascii '.'] := by decide
  have hzeros := digitsValue_zeros (k + 1)
  rw [List.replicate_succ] at hzeros
  refine ⟨⟨[Text.ascii '0'], List.replicate k (Text.ascii '0') ++ digits, 0⟩,
    fun rest hrest => ?_, ?_⟩
  · have htext : Text.ofString "0." ++ List.replicate k (Text.ascii '0') ++ digits ++ rest =
        [Text.ascii '0'] ++ Text.ascii '.' ::
          (List.replicate k (Text.ascii '0') ++ digits ++ rest) := by
      rw [hstart]
      simp
    rw [htext]
    exact scan?_pointed (List.forall_mem_singleton.mpr rfl) (.inl (by decide))
      (List.forall_mem_append.mpr ⟨fun _ => isDigit_zeros, hdigits⟩) hrest.isDigit
      (scanExponent_none hrest)
  · rw [toDecimal, ← List.append_assoc, digitsValue_append, List.singleton_append, hzeros]
    simp

/-- An exponent behind the digits, of which the first stands before the point. -/
theorem reads_exponent (exponent : Int) :
    Reads ((if digits.length = 1 then digits
        else digits.take 1 ++ Text.ascii '.' :: digits.drop 1) ++
        (if exponent < 0 then Text.ofString "e-" else Text.ofString "e+") ++
        Text.ofNat exponent.natAbs)
      ⟨Text.digitsValue digits, exponent - ((digits.length - 1 : Nat) : Int)⟩ := by
  -- neither digits nor a point go on into the exponent
  have htail : ∀ rest, ∀ b ∈ ((if exponent < 0 then Text.ofString "e-" else Text.ofString "e+") ++
      (Text.ofNat exponent.natAbs ++ rest)).head?, Text.isDigit b = false ∧ b ≠ Text.ascii '.' := by
    have hminus : Text.ofString "e-" = [Text.ascii 'e', Text.ascii '-'] := by decide
    have hplus : Text.ofString "e+" = [Text.ascii 'e', Text.ascii '+'] := by decide
    intro rest b hb
    obtain rfl : Text.ascii 'e' = b := by
      split at hb
      · simpa [hminus] using hb
      · simpa [hplus] using hb
    decide
  split
  · rename_i hone
    refine ⟨⟨digits, [], exponent⟩, fun rest hrest => ?_, ?_⟩
    · rw [List.append_assoc, List.append_assoc]
      refine scan?_whole hdigits hne (htail rest) ?_
      rw [← List.append_assoc]
      exact scanExponent_sign hrest exponent
    · simp [toDecimal, hone]
  · obtain ⟨htake, htake'⟩ := take_digits hdigits hne Nat.one_pos
    refine ⟨⟨digits.take 1, digits.drop 1, exponent⟩, fun rest hrest => ?_, ?_⟩
    · rw [List.append_assoc, List.append_assoc, List.append_assoc, List.cons_append]
      refine scan?_pointed htake (.inl htake') (drop_digits hdigits 1)
        (fun b hb => (htail rest b hb).1) ?_
      rw [← List.append_assoc]
      exact scanExponent_sign hrest exponent
    · rw [toDecimal, List.take_append_drop, List.length_drop]

end Layouts

/-- The text of a decimal is a numeral of the same value. -/
theorem reads_write (d : Decimal) : Reads (scriptLayout.write d) d ∨
    0 ≤ d.exponent ∧
      Reads (scriptLayout.write d) ⟨d.digits * 10 ^ d.exponent.toNat, 0⟩ := by
  have hdigits : ∀ b ∈ Text.ofNat d.digits, Text.isDigit b = true := fun _ => isDigit_ofNat
  have hvalue := digitsValue_ofNat d.digits
  have hne := ofNat_ne_nil d.digits
  have hlength : 0 < (Text.ofNat d.digits).length := List.length_pos_iff.mpr hne
  rw [DecimalLayout.write]
  -- only what the digits read as matters from here on
  generalize Text.ofNat d.digits = digits at *
  dsimp only
  split
  · rename_i hpoint
    have hcount : d.exponent + digits.length - digits.length = d.exponent := by omega
    rw [hcount, ← hvalue]
    exact .inr ⟨by omega, reads_integral hdigits hne _⟩
  · refine .inl ?_
    split
    · rename_i hpoint
      have hpositive : 0 < (d.exponent + digits.length).toNat := by omega
      have hreads := reads_pointed hdigits hne hpositive
      have hexponent : -((digits.length - (d.exponent + digits.length).toNat : Nat) : Int) =
          d.exponent := by omega
      rwa [hvalue, hexponent] at hreads
    · split
      · rename_i hpoint
        have hreads := reads_fraction hdigits (-(d.exponent + digits.length)).toNat
        have hexponent : -(((-(d.exponent + digits.length)).toNat + digits.length : Nat) : Int) =
            d.exponent := by omega
        rwa [hvalue, hexponent] at hreads
      · have hreads := reads_exponent hdigits hne (d.exponent + digits.length - 1)
        have hexponent : d.exponent + digits.length - 1 - ((digits.length - 1 : Nat) : Int) =
            d.exponent := by omega
        rwa [hvalue, hexponent] at hreads

/-- A numeral starts with a digit or a point. -/
theorem scan?_front {b : UInt8} {t : Text} {result : Numeral × Text}
    (h : scan? (b :: t) = some result) : Text.isDigit b = true ∨ b = Text.ascii '.' := by
  by_contra hfront
  obtain ⟨hdigit, hpoint⟩ := not_or.mp hfront
  simp [scan?, splitDigits, hdigit, hpoint] at h

end Numeral

/-! ## Numbers -/

/-- The text of a finite number is the sign and a numeral that denotes the number. -/
theorem numberText_spec (negative : Bool) (code : Magnitude) : ∃ body d,
    Label.numberText (.finite negative code) = (if negative then [Text.ascii '-'] else []) ++ body ∧
      Numeral.Reads body d ∧ d.toDouble negative = .finite negative code := by
  rcases Nat.eq_zero_or_pos code.val with hzero | hpos
  · -- only the negative zero has a sign of its own
    obtain rfl : code = ⟨0, by decide⟩ := Fin.ext hzero
    have hdigits : ∀ b ∈ [Text.ascii '0'], Text.isDigit b = true :=
      List.forall_mem_singleton.mpr rfl
    have hreads : Numeral.Reads [Text.ascii '0'] ⟨0, 0⟩ :=
      Numeral.reads_integral hdigits (by decide) 0
    refine ⟨[Text.ascii '0'], ⟨0, 0⟩, ?_, hreads, rfl⟩
    cases negative <;> decide
  · have hrounds := Decimal.shortest_rounds hpos
    have htext : Label.numberText (.finite negative code) =
        (if negative then [Text.ascii '-'] else []) ++
          scriptLayout.write (Decimal.shortest code) := by
      have hne : Double.finite negative code ≠ .zero true := by
        rintro heq
        obtain ⟨_, rfl⟩ := Double.finite.inj heq
        exact absurd hpos (by decide)
      rw [Label.numberText, if_neg hne, Double.toText, if_neg hpos.ne']
      cases negative <;> rfl
    rcases Numeral.reads_write (Decimal.shortest code) with hreads | ⟨hexponent, hreads⟩
    · exact ⟨_, _, htext, hreads, Decimal.toDouble_of_rounds hpos hrounds negative⟩
    · refine ⟨_, _, htext, hreads, Decimal.toDouble_of_rounds hpos (hrounds.congr ?_) negative⟩
      have hnegated : (-(Decimal.shortest code).exponent).toNat = 0 := by omega
      simp [hnegated]

end ScriptSimplifier
