import ScriptSimplifier.Text.Basic

/-! # MD5 digests

The 128-bit MD5 digest of a text, as lower-case hexadecimal digits. -/

namespace ScriptSimplifier

namespace Digest

/-- The four words that a digest is computed in. -/
structure State where
  a : UInt32
  b : UInt32
  c : UInt32
  d : UInt32

/-- The words before the first block. -/
def State.start : State := ⟨0x67452301, 0xEFCDAB89, 0x98BADCFE, 0x10325476⟩

/-- The constant of each of the 64 rounds: the fraction of a sine. -/
def constants : List UInt32 :=
  [0xD76AA478, 0xE8C7B756, 0x242070DB, 0xC1BDCEEE, 0xF57C0FAF, 0x4787C62A, 0xA8304613, 0xFD469501,
   0x698098D8, 0x8B44F7AF, 0xFFFF5BB1, 0x895CD7BE, 0x6B901122, 0xFD987193, 0xA679438E, 0x49B40821,
   0xF61E2562, 0xC040B340, 0x265E5A51, 0xE9B6C7AA, 0xD62F105D, 0x02441453, 0xD8A1E681, 0xE7D3FBC8,
   0x21E1CDE6, 0xC33707D6, 0xF4D50D87, 0x455A14ED, 0xA9E3E905, 0xFCEFA3F8, 0x676F02D9, 0x8D2A4C8A,
   0xFFFA3942, 0x8771F681, 0x6D9D6122, 0xFDE5380C, 0xA4BEEA44, 0x4BDECFA9, 0xF6BB4B60, 0xBEBFBC70,
   0x289B7EC6, 0xEAA127FA, 0xD4EF3085, 0x04881D05, 0xD9D4D039, 0xE6DB99E5, 0x1FA27CF8, 0xC4AC5665,
   0xF4292244, 0x432AFF97, 0xAB9423A7, 0xFC93A039, 0x655B59C3, 0x8F0CCC92, 0xFFEFF47D, 0x85845DD1,
   0x6FA87E4F, 0xFE2CE6E0, 0xA3014314, 0x4E0811A1, 0xF7537E82, 0xBD3AF235, 0x2AD7D2BB, 0xEB86D391]

/-- How far each of the four turns of a group of rounds rotates. -/
def rotations : Nat → List UInt32
  | 0 => [7, 12, 17, 22]
  | 1 => [5, 9, 14, 20]
  | 2 => [4, 11, 16, 23]
  | _ => [6, 10, 15, 21]

/-- The word of a block that a round reads. -/
def wordIndex (round : Nat) : Nat :=
  match round / 16 with
  | 0 => round
  | 1 => (5 * round + 1) % 16
  | 2 => (3 * round + 5) % 16
  | _ => (7 * round) % 16

/-- The mixing function of a round. -/
def mix (round : Nat) (s : State) : UInt32 :=
  match round / 16 with
  | 0 => (s.b &&& s.c) ||| (~~~ s.b &&& s.d)
  | 1 => (s.d &&& s.b) ||| (~~~ s.d &&& s.c)
  | 2 => s.b ^^^ s.c ^^^ s.d
  | _ => s.c ^^^ (s.b ||| ~~~ s.d)

/-- The word rotated to the left. -/
def rotate (word amount : UInt32) : UInt32 := (word <<< amount) ||| (word >>> (32 - amount))

/-- One round on a block of sixteen words. -/
def round (block : List UInt32) (s : State) (entry : UInt32 × Nat) : State :=
  let (constant, i) := entry
  let amount := ((rotations (i / 16))[i % 4]?).getD 0
  let word := (block[wordIndex i]?).getD 0
  ⟨s.d, s.b + rotate (s.a + mix i s + constant + word) amount, s.b, s.c⟩

/-- The digest state after one more block. -/
def absorb (s : State) (block : List UInt32) : State :=
  let t := constants.zipIdx.foldl (round block) s
  ⟨s.a + t.a, s.b + t.b, s.c + t.c, s.d + t.d⟩

/-- The bytes of a number, the least significant first. -/
def bytes : (count : Nat) → Nat → Text
  | 0, _ => []
  | count + 1, n => (n % 256).toUInt8 :: bytes count (n / 256)

/-- The words that groups of four bytes spell. -/
def words : Text → List UInt32
  | a :: b :: c :: d :: rest =>
    (a.toUInt32 ||| (b.toUInt32 <<< 8) ||| (c.toUInt32 <<< 16) ||| (d.toUInt32 <<< 24)) ::
      words rest
  | _ => []

/-- The text, a one bit, zeros and the length in bits, filling whole blocks. -/
def padded (t : Text) : Text :=
  let zeros := (119 - t.length % 64) % 64
  t ++ 0x80 :: List.replicate zeros 0 ++ bytes 8 (8 * t.length)

/-- Absorbs the blocks of a list of words, sixteen words each. -/
def absorbAll : (blocks : Nat) → State → List UInt32 → State
  | 0, s, _ => s
  | blocks + 1, s, words => absorbAll blocks (absorb s (words.take 16)) (words.drop 16)

end Digest

/-- The MD5 digest of a text in hexadecimal digits. -/
def Text.md5 (t : Text) : Text :=
  let words := Digest.words (Digest.padded t)
  let s := Digest.absorbAll (words.length / 16) .start words
  [s.a, s.b, s.c, s.d].flatMap fun word =>
    (Digest.bytes 4 word.toNat).flatMap fun b => Text.hex 2 b.toNat

end ScriptSimplifier
