import ScriptSimplifier.Text.Basic

/-! # Statistics of a pass -/

namespace ScriptSimplifier

/-- What a pass counts, and the fingerprints of the tree before and after it. -/
structure Stats where
  /-- Places that were offered to the rules. -/
  visits : Nat := 0
  /-- Places that were no longer part of the tree when their turn came. -/
  skipped : Nat := 0
  /-- Edits that were applied. -/
  operations : Nat := 0
  /-- Walks that were scheduled. -/
  tasks : Nat := 0
  /-- Pending walks that were dropped because their root was to be walked again. -/
  discarded : Nat := 0
  /-- Applied edits by the name of the rule. -/
  perRule : List (Text × Nat) := []
  before : Text := []
  after : Text := []
  deriving Repr, DecidableEq

namespace Stats

/-- Adds to the count of a rule. -/
def addTo (name : Text) (n : Nat) : List (Text × Nat) → List (Text × Nat)
  | [] => [(name, n)]
  | (other, m) :: rest =>
    if other = name then (other, m + n) :: rest else (other, m) :: addTo name n rest

/-- One more edit of a rule. -/
def applied (s : Stats) (rule : Text) : Stats :=
  { s with operations := s.operations + 1, perRule := addTo rule 1 s.perRule }

/-- Whether the tree was changed. -/
def changed (s : Stats) : Bool := 0 < s.operations && s.before != s.after

/-- The statistics of two passes in a row; the fingerprints span both. -/
def add (s t : Stats) : Stats where
  visits := s.visits + t.visits
  skipped := s.skipped + t.skipped
  operations := s.operations + t.operations
  tasks := s.tasks + t.tasks
  discarded := s.discarded + t.discarded
  perRule := t.perRule.foldl (fun counts (name, n) => addTo name n counts) s.perRule
  before := if s.before.isEmpty then t.before else s.before
  after := t.after

/-- The counts as a text, rules in the order of their names. -/
def shown (s : Stats) : Text :=
  let count (n : Nat) (what : String) : Text := Text.ofNat n ++ Text.ofString what
  let rules := s.perRule.mergeSort fun a b => !decide (b.1 < a.1)
  count s.visits " visits, " ++ count s.skipped " skipped, " ++
    count s.operations " operations, " ++ count s.tasks " tasks, " ++
    count s.discarded " discarded" ++
    rules.flatMap fun (name, n) =>
      Text.ofString "; " ++ name ++ Text.ascii '=' :: Text.ofNat n

end Stats

end ScriptSimplifier
