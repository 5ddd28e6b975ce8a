/-! # Binary floating-point formats

A finite magnitude of a binary format is a whole number of *units*, the unit being the least
positive number of the format.  Magnitudes are numbered in increasing order by their *code*, the
bit pattern without the sign, so that codes are dense and comparing codes compares magnitudes.
`BinaryFormat.units` reads a code and `BinaryFormat.nearestCode` rounds an exact quotient of units
to the nearest code, a half going to the even code.  All of it is natural-number arithmetic. -/

namespace ScriptSimplifier

/-- A binary floating-point format, given by the widths of its two magnitude fields. -/
structure BinaryFormat where
  /-- Width of the stored part of the significand. -/
  fractionBits : Nat
  /-- Width of the exponent field. -/
  exponentBits : Nat
  deriving Repr, DecidableEq

/-- The 64-bit format. -/
def binary64 : BinaryFormat := ⟨52, 11⟩

/-- The 32-bit format. -/
def binary32 : BinaryFormat := ⟨23, 8⟩

namespace BinaryFormat

/-- One is this power of two of units. -/
def unitExponent (format : BinaryFormat) : Nat :=
  Nat.pow 2 (format.exponentBits - 1) - 2 + format.fractionBits

/-- The first code that is too large for a finite number; it stands for infinity. -/
def infinityCode (format : BinaryFormat) : Nat :=
  (Nat.pow 2 format.exponentBits - 1) * Nat.pow 2 format.fractionBits

/-- The number of units that a code stands for. -/
def units (format : BinaryFormat) (code : Nat) : Nat :=
  let exponent := code / Nat.pow 2 format.fractionBits
  let fraction := code % Nat.pow 2 format.fractionBits
  if exponent = 0 then fraction
  else (Nat.pow 2 format.fractionBits + fraction) * Nat.pow 2 (exponent - 1)

end BinaryFormat

/-- The whole number nearest to `num / den`; a half goes to the even neighbour. -/
def roundHalfEven (num den : Nat) : Nat :=
  let low := num / den
  let rest := 2 * (num % den)
  if rest < den then low
  else if den < rest then low + 1
  else low + low % 2

/-- The code of the magnitude nearest to `num / den` units; a half goes to the even code.  The
result is not below `infinityCode` when the quotient is too large for a finite number. -/
def BinaryFormat.nearestCode (format : BinaryFormat) (num den : Nat) : Nat :=
  let shift := Nat.log2 (num / den) - format.fractionBits
  shift * Nat.pow 2 format.fractionBits + roundHalfEven num (den * Nat.pow 2 shift)

end ScriptSimplifier
