import ScriptSimplifier.Proofs.Pass.Sessions
import ScriptSimplifier.Proofs.SExpression.Reading

/-!
# One holder for each element

The tree of a session stays a tree.  Nothing lies below itself, and whatever lies below the root is
held by exactly one slot there: by one field of one node, or at one position of one list.  Only the
empty statement and the canonical fragments, null among them, may stand in several slots.

Every way down from the root is the way of a live cursor, and an element that is not shared has only
one of those (`Cursor.Live.unique`); its last step is the slot.
-/

namespace ScriptSimplifier

open Workspace

variable {strict : Strictness} {s : Store} {root : Ref} {w : Workspace} {t : Tree}

/-- A place of an element: a field of a node or a position of a list. -/
abbrev Slot := Ref × Key

/-- An element stands in a slot below a root. -/
def Store.InSlot (s : Store) (root r : Ref) (slot : Slot) : Prop :=
  s.Reaches root slot.1 ∧ s.HoldsAt slot.1 slot.2 r

/-- Everything below the root has a live cursor. -/
theorem Store.Typed.exists_live (ht : s.Typed strict) {r : Ref} (h : s.Reaches root r) :
    ∃ c : Cursor, c.Live s root ∧ c.element = some r := by
  induction h with
  | refl => exact ⟨.root (some root), rfl, rfl⟩
  | @tail p r _ hholds ih =>
    obtain ⟨c, hlive, hc⟩ := ih
    obtain ⟨key, hkey⟩ := ht.shaped.holdsAt_of_holds hholds
    exact ⟨.step c key (some r), ⟨hlive, p, r, hc, rfl, hkey⟩, rfl⟩

/-- What lies below the root, and is not the root, stands in a slot. -/
theorem Store.Typed.exists_slot (ht : s.Typed strict) {r : Ref} (h : s.Reaches root r)
    (hr : r ≠ root) : ∃ slot, s.InSlot root r slot := by
  cases Relation.ReflTransGen.cases_tail h with
  | inl hroot => exact absurd hroot hr
  | inr hlast =>
    obtain ⟨p, hp, hholds⟩ := hlast
    obtain ⟨key, hkey⟩ := ht.shaped.holdsAt_of_holds hholds
    exact ⟨(p, key), hp, hkey⟩

/-- Two slots of an element that is not shared are the same one. -/
theorem Workspace.Intact.slot_unique (hw : w.Intact strict root) {r : Ref}
    (hr : w.shares r = false) {slot slot' : Slot} (h : w.store.InSlot root r slot)
    (h' : w.store.InSlot root r slot') : slot = slot' := by
  obtain ⟨p, key⟩ := slot
  obtain ⟨p', key'⟩ := slot'
  obtain ⟨c, hlive, hc⟩ := hw.typed.exists_live h.1
  obtain ⟨c', hlive', hc'⟩ := hw.typed.exists_live h'.1
  have hstep : Cursor.Live w.store root (.step c key (some r)) := ⟨hlive, p, r, hc, rfl, h.2⟩
  have hstep' : Cursor.Live w.store root (.step c' key' (some r)) :=
    ⟨hlive', p', r, hc', rfl, h'.2⟩
  have hsame := Cursor.Live.unique hw.acyclic (fun _ _ => hw.shares_holds) hw.nodup hstep hstep'
    rfl rfl hr
  obtain ⟨hcc, hkey, -⟩ := Cursor.step.inj hsame
  subst hcc
  exact Prod.ext (Option.some.inj (hc.symm.trans hc')) hkey

/-- Nothing lies below itself. -/
theorem Store.Acyclic.not_below_self (hs : s.Acyclic) (r : Ref) :
    ¬ Relation.TransGen s.Holds r r := by
  intro h
  obtain ⟨c, hholds, hreach⟩ := Relation.TransGen.head'_iff.mp h
  exact hs.not_reaches hholds hreach

/-- The tree of a session stays a tree.  For every tree that was read, after any passes of the
catalog in one workspace, and at any step of one: nothing lies below itself, no slot below the root
holds the root, and every other element below the root stands in exactly one slot there, unless it
is the empty statement or a canonical fragment. -/
theorem session_slots_unique {text : Text} (hread : Tree.read text = .ok t)
    (hw : Session t root w) :
    (∀ r, ¬ Relation.TransGen w.store.Holds r r) ∧
    (∀ slot, ¬ w.store.InSlot root root slot) ∧
    ∀ r, w.store.Reaches root r → r ≠ root → r ≠ .emptyStatement →
      w.pool.isConstant (some r) = false → ∃! slot, w.store.InSlot root r slot := by
  have hintact := hw.intact (read_wellFormed hread)
  refine ⟨hintact.acyclic.not_below_self, ?_, ?_⟩
  · intro slot hslot
    exact hintact.acyclic.not_reaches hslot.2.holds hslot.1
  · intro r hreach hroot hempty hconstant
    have hown : w.shares r = false := by
      simp [shares, hempty, hconstant]
    obtain ⟨slot, hslot⟩ := hintact.typed.exists_slot hreach hroot
    exact ⟨slot, hslot, fun slot' hslot' => hintact.slot_unique hown hslot' hslot⟩

/-- A script with a block that holds one statement. -/
def blockScript : Tree :=
  .node .script [.list [.node .blockStatement [.node .block [.list
    [.node .returnStatement [.node (.unaryExpression "!") [.node (.booleanLiteral true) []]]]]]]]

/-- The workspace in which a pass has put the statement in the place of the block. -/
def flattenedBlock : Workspace :=
  ((({} : Options).pass "flatten" [.deblock, .foldConstant]).process 60
    (.ofStore (Store.empty.plant blockScript).2) () (some (.cell 7))).workspace

/-- After the pass the old block still holds the statement, but no slot below the root other than
the one where the block stood does. -/
theorem session_slots_unique_blockScript :
    Tree.read "(Script [(BlockStatement (Block [(ReturnStatement (UnaryExpression ! true))]))])" =
      .ok blockScript ∧
    Session blockScript (.cell 7) flattenedBlock ∧
    flattenedBlock.store.Holds (.cell 3) (.cell 2) ∧
    flattenedBlock.store.Holds (.cell 6) (.cell 2) ∧
    ∃! slot, flattenedBlock.store.InSlot (.cell 7) (.cell 2) slot := by
  have hread : Tree.read
      "(Script [(BlockStatement (Block [(ReturnStatement (UnaryExpression ! true))]))])" =
        .ok blockScript := rfl
  have hplanted : Session blockScript (.cell 7) (.ofStore (Store.empty.plant blockScript).2) :=
    .planted rfl
  have hw : Session blockScript (.cell 7) flattenedBlock := .passed 60 () rfl hplanted
  have hblock : flattenedBlock.store.below (.cell 3) = [some (.cell 2)] := by decide +kernel
  have hlist : flattenedBlock.store.below (.cell 6) = [some (.cell 2)] := by decide +kernel
  have hroot : flattenedBlock.store.below (.cell 7) = [some (.cell 6)] := by decide +kernel
  have hholds : flattenedBlock.store.Holds (.cell 6) (.cell 2) := by simp [Store.Holds, hlist]
  have hreach : flattenedBlock.store.Reaches (.cell 7) (.cell 2) :=
    .head (by simp [Store.Holds, hroot]) (.single hholds)
  have hconstant : flattenedBlock.pool.isConstant (some (.cell 2)) = false := by decide +kernel
  exact ⟨hread, hw, by simp [Store.Holds, hblock], hholds,
    (session_slots_unique hread hw).2.2 (.cell 2) hreach (by decide) (by decide) hconstant⟩

end ScriptSimplifier
