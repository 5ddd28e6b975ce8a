import ScriptSimplifier.Proofs.Numeric.Numerals
import ScriptSimplifier.Proofs.Numeric.Radix

/-!
# The grammar of decimal literals

A decimal literal is described by its parts: digits with an optional point, or a point with digits,
and an optional exponent.  Scanning finds these parts (`scan?_sound`), and of a text that is a
decimal literal it leaves nothing over (`read?_isSome_iff`).
-/

namespace ScriptSimplifier

namespace NumericString

/-! ## Grammar -/

/-- One digit of a radix or more. -/
structure Digits (radix : ℕ) (t : Text) : Prop where
  some : t ≠ []
  spelled : ∀ b ∈ t, ∃ d, Spells radix b d

/-- A sign in front of a number, which may be missing. -/
def signs : List Text := [[], Text.ofString "+", Text.ofString "-"]

/-- The exponent of a decimal literal, which may be missing. -/
inductive ExponentPart : Text → Prop where
  | missing : ExponentPart []
  | present {mark sign digits : Text} (marked : mark ∈ [Text.ofString "e", Text.ofString "E"])
    (signed : sign ∈ signs) (some : Digits 10 digits) :
    ExponentPart (mark ++ sign ++ digits)

/-- A decimal literal without a sign. -/
inductive DecimalLiteral : Text → Prop where
  | whole {digits exponent : Text} (some : Digits 10 digits) (scaled : ExponentPart exponent) :
    DecimalLiteral (digits ++ exponent)
  | pointed {digits fraction exponent : Text} (some : Digits 10 digits)
    (more : fraction = [] ∨ Digits 10 fraction) (scaled : ExponentPart exponent) :
    DecimalLiteral (digits ++ Text.ofString "." ++ fraction ++ exponent)
  | fraction {digits exponent : Text} (some : Digits 10 digits) (scaled : ExponentPart exponent) :
    DecimalLiteral (Text.ofString "." ++ digits ++ exponent)

theorem isDigit_iff {b : UInt8} : Text.isDigit b = true ↔ ∃ d, Spells 10 b d := by
  have hall : ∀ b, Text.isDigit b = (digit? 10 b).isSome := forall_byte (by decide +kernel)
  simp only [hall b, Option.isSome_iff_exists, digit?_eq_some_iff (show 10 ≤ 16 by decide)]

theorem digits_iff {t : Text} : Digits 10 t ↔ t ≠ [] ∧ ∀ b ∈ t, Text.isDigit b = true := by
  constructor
  · rintro ⟨hne, hspelled⟩
    exact ⟨hne, fun b hb => isDigit_iff.mpr (hspelled b hb)⟩
  · rintro ⟨hne, hdigits⟩
    exact ⟨hne, fun b hb => isDigit_iff.mp (hdigits b hb)⟩

theorem isDigit_of_digits {t : Text} (h : t = [] ∨ Digits 10 t) :
    ∀ b ∈ t, Text.isDigit b = true := by
  rcases h with rfl | h
  · simp
  · exact (digits_iff.mp h).2

/-! ## Signs -/

/-- A text is a sign and what follows it. -/
theorem splitSign_spec (t : Text) : ∃ sign ∈ signs, t = sign ++ (splitSign t).2 := by
  cases t with
  | nil => exact ⟨[], by simp [signs], rfl⟩
  | cons b rest =>
    rw [splitSign]
    split
    · rename_i hminus
      exact ⟨Text.ofString "-", by simp [signs], by rw [eq_of_beq hminus]; rfl⟩
    · split
      · rename_i hplus
        exact ⟨Text.ofString "+", by simp [signs], by rw [eq_of_beq hplus]; rfl⟩
      · exact ⟨[], by simp [signs], rfl⟩

/-- A sign is taken from the front of a text that has no further one. -/
theorem splitSign_append {sign t : Text} (hsign : sign ∈ signs)
    (ht : ∀ b ∈ t.head?, b ≠ Text.ascii '+' ∧ b ≠ Text.ascii '-') :
    (splitSign (sign ++ t)).2 = t := by
  have hminus : Text.ofString "-" = [Text.ascii '-'] := rfl
  have hplus : Text.ofString "+" = [Text.ascii '+'] := rfl
  have hdiffer : (Text.ascii '+' == Text.ascii '-') = false := by decide
  simp only [signs, List.mem_cons, List.not_mem_nil, or_false, hminus, hplus] at hsign
  rcases hsign with rfl | rfl | rfl
  · cases t with
    | nil => rfl
    | cons b rest =>
      obtain ⟨hplus', hminus'⟩ := ht b rfl
      simp [splitSign, hplus', hminus']
  · simp [splitSign, hdiffer]
  · simp [splitSign]

end NumericString

namespace Numeral

open NumericString

/-! ## Scanning finds the parts -/

/-- A text is digits, possibly none, and what follows them. -/
theorem splitDigits_spec (t : Text) : ∃ digits rest, splitDigits t = (digits, rest) ∧
    t = digits ++ rest ∧ (digits = [] ∨ Digits 10 digits) := by
  refine ⟨_, _, rfl, List.takeWhile_append_dropWhile.symm, ?_⟩
  by_cases hne : t.takeWhile Text.isDigit = []
  · exact .inl hne
  · exact .inr (digits_iff.mpr ⟨hne, fun b hb => List.all_eq_true.mp List.all_takeWhile b hb⟩)

/-- The digits of an exponent follow its sign. -/
theorem scanExponentDigits?_eq {t digits rest : Text}
    (h : splitDigits (splitSign t).2 = (digits, rest)) : scanExponentDigits? t =
      if digits.isEmpty then none
      else
        let value : ℤ := Text.digitsValue digits
        some (if (splitSign t).1 then -value else value, rest) := by
  have hsigned : scanExponentDigits? t =
      if (splitDigits (splitSign t).2).1.isEmpty then none
      else
        let value : ℤ := Text.digitsValue (splitDigits (splitSign t).2).1
        some (if (splitSign t).1 then -value else value, (splitDigits (splitSign t).2).2) := by
    cases t with
    | nil => rfl
    | cons b rest => rfl
  rw [hsigned, h]

theorem scanExponent_sound (t : Text) :
    ∃ part, t = part ++ (scanExponent t).2 ∧ ExponentPart part := by
  unfold scanExponent
  split
  · rename_i mark more
    split
    · rename_i hmark
      -- without digits behind it, the mark is not part of the literal
      obtain ⟨sign, hsign, hmore⟩ := splitSign_spec more
      obtain ⟨digits, after, hsplit, hsigned, hdigits⟩ := splitDigits_spec (splitSign more).2
      rw [scanExponentDigits?_eq hsplit]
      split
      · exact ⟨[], rfl, .missing⟩
      · rename_i hempty
        have hmark' : [mark] ∈ [Text.ofString "e", Text.ofString "E"] := by
          rcases Bool.or_eq_true_iff.mp hmark with hsmall | hlarge
          · rw [eq_of_beq hsmall]
            decide
          · rw [eq_of_beq hlarge]
            decide
        refine ⟨[mark] ++ sign ++ digits, ?_,
          .present hmark' hsign (hdigits.resolve_left (by simpa using hempty))⟩
        rw [hmore, hsigned]
        simp
    · exact ⟨[], rfl, .missing⟩
  · exact ⟨[], rfl, .missing⟩

/-- What is scanned is a decimal literal. -/
theorem scan?_sound {t rest : Text} {n : Numeral} (h : scan? t = some (n, rest)) :
    ∃ literal, t = literal ++ rest ∧ DecimalLiteral literal := by
  obtain ⟨whole, tail, hsplit, rfl, hwhole⟩ := splitDigits_spec t
  -- a literal without a point
  have hplain : whole ≠ [] → (scanExponent tail).2 = rest →
      ∃ literal, whole ++ tail = literal ++ rest ∧ DecimalLiteral literal := by
    rintro hne rfl
    obtain ⟨part, htail, hpart⟩ := scanExponent_sound tail
    refine ⟨whole ++ part, ?_, .whole (hwhole.resolve_left hne) hpart⟩
    rw [List.append_assoc, ← htail]
  rw [scan?, hsplit] at h
  cases tail with
  | nil =>
    simp only at h
    split at h
    · cases h
    · rename_i hempty
      obtain ⟨-, hrest⟩ := Prod.mk.inj (Option.some.inj h)
      exact hplain (by simpa using hempty) hrest
  | cons b more =>
    obtain ⟨fraction, after, hsplit', rfl, hfraction⟩ := splitDigits_spec more
    simp only [hsplit'] at h
    by_cases hpoint : (b == Text.ascii '.') = true
    · obtain rfl := eq_of_beq hpoint
      rw [if_pos hpoint] at h
      by_cases hboth : (whole.isEmpty && fraction.isEmpty) = true
      · rw [if_pos hboth, List.isEmpty_nil, Bool.and_true,
          if_pos (Bool.and_eq_true_iff.mp hboth).1] at h
        cases h
      · rw [if_neg hboth, if_neg hboth] at h
        obtain ⟨-, rfl⟩ := Prod.mk.inj (Option.some.inj h)
        obtain ⟨part, hafter, hpart⟩ := scanExponent_sound after
        have hdot : Text.ofString "." = [Text.ascii '.'] := rfl
        rcases hwhole with rfl | hwhole
        · have hsome : fraction ≠ [] := by simpa using hboth
          refine ⟨_, ?_, .fraction (hfraction.resolve_left hsome) hpart⟩
          conv_lhs => rw [hafter]
          simp [hdot]
        · refine ⟨_, ?_, .pointed hwhole hfraction hpart⟩
          conv_lhs => rw [hafter]
          simp [hdot]
    · rw [if_neg hpoint, List.isEmpty_nil, Bool.and_true] at h
      split at h
      · cases h
      · rename_i hempty
        obtain ⟨-, hrest⟩ := Prod.mk.inj (Option.some.inj h)
        exact hplain (by simpa using hempty) hrest

/-! ## A literal is scanned to its end -/

/-- The marks of an exponent. -/
theorem mem_marks {mark : Text} : mark ∈ [Text.ofString "e", Text.ofString "E"] ↔
    mark = [Text.ascii 'e'] ∨ mark = [Text.ascii 'E'] := by
  rw [List.mem_cons, List.mem_singleton]
  rfl

/-- An exponent starts with no digit and no point. -/
theorem exponentPart_front {part : Text} (h : ExponentPart part) :
    ∀ b ∈ part.head?, Text.isDigit b = false ∧ b ≠ Text.ascii '.' := by
  cases h with
  | missing => simp
  | present hmark =>
    rintro b hb
    rcases mem_marks.mp hmark with rfl | rfl
    all_goals
      obtain rfl := Option.some.inj hb
      decide

/-- A digit is no sign. -/
theorem head?_digits {t : Text} (h : Digits 10 t) :
    ∀ b ∈ t.head?, b ≠ Text.ascii '+' ∧ b ≠ Text.ascii '-' := by
  intro b hb
  have hdigit := (digits_iff.mp h).2 b (List.mem_of_mem_head? hb)
  constructor
  · rintro rfl
    exact absurd hdigit (by decide)
  · rintro rfl
    exact absurd hdigit (by decide)

theorem scanExponent_complete {part : Text} (h : ExponentPart part) :
    (scanExponent part).2 = [] := by
  cases h with
  | missing => rfl
  | @present mark sign digits hmark hsign hdigits =>
    have hsplit : splitDigits (splitSign (sign ++ digits)).2 = (digits, []) := by
      rw [splitSign_append hsign (head?_digits hdigits)]
      have hnothing : splitDigits (digits ++ []) = (digits, []) :=
        splitDigits_append (digits_iff.mp hdigits).2 (by simp)
      rwa [List.append_nil] at hnothing
    have hempty : digits.isEmpty = false := by simpa using hdigits.some
    rw [List.append_assoc]
    rcases mem_marks.mp hmark with rfl | rfl
    all_goals simp [scanExponent, scanExponentDigits?_eq hsplit, hempty]

/-- The texts that are read are the decimal literals. -/
theorem read?_isSome_iff {t : Text} : (read? t).isSome ↔ DecimalLiteral t := by
  constructor
  · intro h
    obtain ⟨n, hn⟩ := Option.isSome_iff_exists.mp h
    rw [read?] at hn
    split at hn
    · rename_i hscan
      obtain ⟨literal, rfl, hliteral⟩ := scan?_sound hscan
      rwa [List.append_nil]
    · cases hn
  · intro h
    have hend : ∀ {part : Text}, ExponentPart part →
        scanExponent part = ((scanExponent part).1, []) :=
      fun hpart => Prod.ext rfl (scanExponent_complete hpart)
    have hdot : Text.ofString "." = [Text.ascii '.'] := rfl
    have hscan : ∃ n, scan? t = some (n, []) := by
      cases h with
      | whole hdigits hpart =>
        obtain ⟨hne, hall⟩ := digits_iff.mp hdigits
        exact ⟨_, scan?_whole hall hne (exponentPart_front hpart) (hend hpart)⟩
      | pointed hdigits hmore hpart =>
        obtain ⟨hne, hall⟩ := digits_iff.mp hdigits
        rw [hdot, List.append_assoc, List.append_assoc, List.singleton_append]
        exact ⟨_, scan?_pointed hall (.inl hne) (isDigit_of_digits hmore)
          (fun b hb => (exponentPart_front hpart b hb).1) (hend hpart)⟩
      | fraction hdigits hpart =>
        obtain ⟨hne, hall⟩ := digits_iff.mp hdigits
        rw [hdot, List.append_assoc, List.singleton_append, ← List.nil_append (_ :: _)]
        exact ⟨_, scan?_pointed (by simp) (.inr hne) hall
          (fun b hb => (exponentPart_front hpart b hb).1) (hend hpart)⟩
    obtain ⟨n, hn⟩ := hscan
    rw [read?, hn, Option.isSome_some]

end Numeral

end ScriptSimplifier
