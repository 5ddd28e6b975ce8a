import ScriptSimplifier.Rule.Basic

/-! # Rules that keep a journal

A journal counts how often each rule of a pass has fired and holds notes on what the rules did. -/

namespace ScriptSimplifier

/-- What rules of a pass remember together. -/
structure Journal where
  /-- How often each rule has fired, by its number. -/
  uses : List Nat := []
  /-- Notes, the last one first. -/
  notes : List Text := []
  deriving Repr

namespace Journal

/-- Adds a note. -/
def note (j : Journal) (t : Text) : Journal := { j with notes := t :: j.notes }

/-- The notes in the order in which they were made. -/
def lines (j : Journal) : List Text := j.notes.reverse

/-- How often a rule has fired. -/
def usesOf (j : Journal) (rule : Nat) : Nat := (j.uses[rule]?).getD 0

/-- Counts one more use of a rule. -/
def countUse (j : Journal) (rule : Nat) : Journal :=
  let missing := List.replicate (rule + 1 - j.uses.length) 0
  { j with uses := (j.uses ++ missing).modify rule (· + 1) }

end Journal

namespace Rule

/-- A rule that notes every place it is offered and never proposes an edit. -/
def observer : Rule Journal where
  name := "trace"
  propose place w journal :=
    .ok (.nothing w (journal.note (Text.ofString "visit " ++ place.shown w.store)))

/-- The rule, noting every edit that it proposes. -/
def noted (rule : Rule Journal) : Rule Journal where
  name := rule.name
  propose place w journal := do
    let proposal ← rule.propose place w journal
    match proposal.edit with
    | none => return proposal
    | some edit =>
      let text := Text.ofString "fire " ++ rule.name ++ Text.ofString ": " ++
        edit.shown proposal.workspace.store
      return { proposal with memory := proposal.memory.note text }

end Rule

end ScriptSimplifier
