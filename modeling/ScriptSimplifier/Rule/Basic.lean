import ScriptSimplifier.Fault

/-! # Rules

A rule looks at a place of a tree and may propose an edit there.  It does not change the tree
itself, but it may add nodes to the store for the edit to put in place, ask the pool for fragments,
and remember something of its own between calls. -/

namespace ScriptSimplifier

/-- What a rule answers: an edit or none, the workspace with the nodes it added, and what it
remembers. -/
structure Proposal (σ : Type) where
  edit : Option Edit
  workspace : Workspace
  memory : σ

/-- A named rule with a memory. -/
structure Rule (σ : Type) where
  name : Text
  propose : Cursor → Workspace → σ → Except Fault (Proposal σ)

/-- The proposal to do nothing. -/
def Proposal.nothing {σ : Type} (w : Workspace) (memory : σ) : Proposal σ := ⟨none, w, memory⟩

/-- A rule without memory and faults. -/
def Rule.plain {σ : Type} (name : Text) (propose : Cursor → Workspace → Option (Edit × Workspace)) :
    Rule σ where
  name := name
  propose place w memory :=
    match propose place w with
    | some (edit, w) => .ok ⟨some edit, w, memory⟩
    | none => .ok (.nothing w memory)

end ScriptSimplifier
