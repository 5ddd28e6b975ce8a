import ScriptSimplifier.Difference.Merge

/-! # Finding a difference

The difference of two sequences is found by trimming what they share at both ends, by looking for
one sequence in the other, by splitting at a long common part, and else by walking from both ends
along the diagonals of the edit graph until the two walks meet. -/

namespace ScriptSimplifier

namespace Difference

variable {α : Type} [DecidableEq α]

/-! ## A long common part -/

/-- Two sequences, each cut around a part that they share. -/
structure Split (α : Type) where
  firstStart : List α
  firstEnd : List α
  secondStart : List α
  secondEnd : List α
  common : List α

/-- The same split for the sequences in the other order. -/
def Split.swap (s : Split α) : Split α :=
  ⟨s.secondStart, s.secondEnd, s.firstStart, s.firstEnd, s.common⟩

/-- The split around an occurrence at `j` in the short sequence of what stands at `i` in the long
one. -/
def splitAround (long short : List α) (i j : Nat) : Split α :=
  let forward := sharedStart (long.drop i) (short.drop j)
  let backward := sharedEnd (long.take i) (short.take j)
  ⟨long.take (i - backward), long.drop (i + forward), short.take (j - backward),
    short.drop (j + forward), (short.drop (j - backward)).take (backward + forward)⟩

/-- The best split that a quarter of the long sequence at a position seeds, if the common part is
at least half as long as the long sequence. -/
def splitAt? (long short : List α) (i : Nat) : Option (Split α) :=
  let seed := (long.drop i).take (long.length / 4)
  let places := (List.range short.length).filter fun j => seed.isPrefixOf (short.drop j)
  let better (best : Option (Split α)) (j : Nat) : Option (Split α) :=
    let candidate := splitAround long short i j
    let size := (best.map (·.common.length)).getD 0
    if size < candidate.common.length then some candidate else best
  (places.foldl better none).filter fun s => long.length ≤ 2 * s.common.length

/-- A split around a common part at least half as long as the longer sequence; of the two quarters
that may seed one, the later wins a tie. -/
def splitLong? (long short : List α) : Option (Split α) :=
  if long.length < 4 ∨ 2 * short.length < long.length then none
  else
    match splitAt? long short ((long.length + 3) / 4),
        splitAt? long short ((long.length + 1) / 2) with
    | some s, some t => some (if t.common.length < s.common.length then s else t)
    | some s, none => some s
    | none, other => other

/-- A split of two sequences around a long common part. -/
def split? (first second : List α) : Option (Split α) :=
  if second.length < first.length then splitLong? first second
  else (splitLong? second first).map Split.swap

/-! ## Meeting in the middle -/

/-- A walk through the edit graph: how far it reaches on each diagonal, shifted by an offset, and
how many diagonals at either end have left the graph. -/
structure Walk where
  reach : Array Int
  low : Int
  high : Int

/-- How far a walk reaches on a diagonal, or -1. -/
def Walk.at (w : Walk) (index : Int) : Int :=
  if index < 0 then -1 else (w.reach[index.toNat]?).getD (-1)

/-- Where a walk of a depth enters a diagonal. -/
def Walk.enter (w : Walk) (offset depth k : Int) : Int :=
  let below := w.at (offset + k + 1)
  let above := w.at (offset + k - 1)
  if k = -depth ∨ (k ≠ depth ∧ above < below) then below else above + 1

/-- How many elements match from two positions on. -/
def slide (first second : Array α) : (fuel : Nat) → (x y : Int) → Nat
  | 0, _, _ => 0
  | fuel + 1, x, y =>
    match first[x.toNat]?, second[y.toNat]? with
    | some a, some b => if a = b then slide first second fuel (x + 1) (y + 1) + 1 else 0
    | _, _ => 0

/-- Extends a walk of a depth on the diagonals from `k` on, every other one.  Stops where `meets`
finds the other walk at a point. -/
def sweep (first second : Array α) (offset depth : Int) (meets : Int → Int → Option (Int × Int)) :
    (fuel : Nat) → (k : Int) → Walk → Walk × Option (Int × Int)
  | 0, _, w => (w, none)
  | fuel + 1, k, w =>
    if depth - w.high < k then (w, none)
    else
      let start := w.enter offset depth k
      let x := start + slide first second first.size start (start - k)
      let y := x - k
      let reach := w.reach.setIfInBounds (offset + k).toNat x
      if (first.size : Int) < x then
        sweep first second offset depth meets fuel (k + 2) ⟨reach, w.low, w.high + 2⟩
      else if (second.size : Int) < y then
        sweep first second offset depth meets fuel (k + 2) ⟨reach, w.low + 2, w.high⟩
      else
        let next : Walk := ⟨reach, w.low, w.high⟩
        match meets k x with
        | some point => (next, some point)
        | none => sweep first second offset depth meets fuel (k + 2) next

/-- The point where the walks from both ends meet, if they do within `fuel` more steps. -/
def meetFrom (first second : Array α) (offset : Int) :
    (fuel : Nat) → (depth : Int) → (forward backward : Walk) → Option (Int × Int)
  | 0, _, _, _ => none
  | fuel + 1, depth, forward, backward =>
    let size : Int := first.size
    let delta : Int := size - second.size
    let odd := delta % 2 ≠ 0
    let length : Int := 2 * offset
    let inRange (i : Int) : Bool := 0 ≤ i && i < length
    let meetsBackward (k x : Int) : Option (Int × Int) :=
      let index := offset + delta - k
      let other := backward.at index
      if odd ∧ inRange index ∧ other ≠ -1 ∧ size - other ≤ x then some (x, x - k) else none
    let steps := depth.toNat + 1
    match sweep first second offset depth meetsBackward steps (-depth + forward.low) forward with
    | (_, some point) => some point
    | (forward, none) =>
      let meetsForward (k x : Int) : Option (Int × Int) :=
        let index := offset + delta - k
        let other := forward.at index
        if ¬ odd ∧ inRange index ∧ other ≠ -1 ∧ size - x ≤ other then
          some (other, offset + other - index)
        else none
      match sweep first.reverse second.reverse offset depth meetsForward steps
          (-depth + backward.low) backward with
      | (_, some point) => some point
      | (backward, none) => meetFrom first second offset fuel (depth + 1) forward backward

/-- The point where the walks from both ends of the edit graph meet. -/
def meet? (first second : List α) : Option (Nat × Nat) :=
  let depth := (first.length + second.length + 1) / 2
  let walk : Walk := ⟨(Array.replicate (2 * depth) (-1)).setIfInBounds (depth + 1) 0, 0, 0⟩
  (meetFrom first.toArray second.toArray depth depth 0 walk walk).map fun (x, y) =>
    (x.toNat, y.toNat)

/-! ## The search -/

/-- Replaces one sequence by another. -/
def replacement (first second : List α) : List (Piece α) := [⟨.removed, first⟩, ⟨.added, second⟩]

/-- The difference of two sequences that share neither their start nor their end, given how to
compare smaller sequences. -/
def searchMiddle (recur : List α → List α → List (Piece α)) (first second : List α) :
    List (Piece α) :=
  if first.isEmpty then [⟨.added, second⟩]
  else if second.isEmpty then [⟨.removed, first⟩]
  else
    let longer := second.length < first.length
    let (long, short) := if longer then (first, second) else (second, first)
    let side : Side := if longer then .removed else .added
    match positionFrom? short 0 long with
    | some i => [⟨side, long.take i⟩, ⟨.both, short⟩, ⟨side, long.drop (i + short.length)⟩]
    | none =>
      if short.length = 1 then replacement first second
      else
        match split? first second with
        | some s =>
          recur s.firstStart s.secondStart ++ ⟨.both, s.common⟩ :: recur s.firstEnd s.secondEnd
        | none =>
          match meet? first second with
          | some (x, y) =>
            recur (first.take x) (second.take y) ++ recur (first.drop x) (second.drop y)
          | none => replacement first second

/-- The difference of two sequences, splitting them at most `fuel` times in a row. -/
def searchFor : (fuel : Nat) → (first second : List α) → List (Piece α)
  | 0, first, second => replacement first second
  | fuel + 1, first, second =>
    if first = second then if first.isEmpty then [] else [⟨.both, first⟩]
    else
      let start := sharedStart first second
      let restFirst := first.drop start
      let restSecond := second.drop start
      let tail := sharedEnd restFirst restSecond
      let middle :=
        searchMiddle (searchFor fuel) (dropEnd tail restFirst) (dropEnd tail restSecond)
      let opening := if start = 0 then [] else [⟨.both, first.take start⟩]
      let ending := if tail = 0 then [] else [⟨.both, takeEnd tail restFirst⟩]
      tidy (opening ++ middle ++ ending)

/-- The difference of two sequences.  Every split makes the sequences shorter, so their length
bounds the number of splits in a row. -/
def search (first second : List α) : List (Piece α) :=
  searchFor (first.length + second.length + 1) first second

end Difference

end ScriptSimplifier
