/-! # Pieces of a difference

A difference between two sequences is a list of pieces: parts that both share, parts that only the
first one has and parts that only the second one has. -/

namespace ScriptSimplifier

namespace Difference

/-- Which of two sequences a piece belongs to. -/
inductive Side where
  | both
  | removed
  | added
  deriving Repr, DecidableEq

/-- A part of a difference. -/
structure Piece (α : Type) where
  side : Side
  content : List α
  deriving Repr, DecidableEq

/-- The sequence before the change. -/
def before {α : Type} (pieces : List (Piece α)) : List α :=
  pieces.flatMap fun p => if p.side = .added then [] else p.content

/-- The sequence after the change. -/
def after {α : Type} (pieces : List (Piece α)) : List α :=
  pieces.flatMap fun p => if p.side = .removed then [] else p.content

/-! ## Shared ends of two sequences -/

variable {α : Type} [DecidableEq α]

/-- How many elements two sequences share at their start. -/
def sharedStart : List α → List α → Nat
  | a :: as, b :: bs => if a = b then sharedStart as bs + 1 else 0
  | _, _ => 0

/-- How many elements two sequences share at their end. -/
def sharedEnd (as bs : List α) : Nat := sharedStart as.reverse bs.reverse

/-- The sequence without its last elements. -/
def dropEnd (n : Nat) (as : List α) : List α := as.take (as.length - n)

/-- The last elements of a sequence. -/
def takeEnd (n : Nat) (as : List α) : List α := as.drop (as.length - n)

/-- The first position at or after `skip` where one sequence occurs in another. -/
def positionFrom? (part : List α) (skip : Nat) (whole : List α) : Option Nat :=
  (List.range (whole.length + 1)).find? fun i =>
    skip ≤ i && part.isPrefixOf (whole.drop i)

end Difference

end ScriptSimplifier
