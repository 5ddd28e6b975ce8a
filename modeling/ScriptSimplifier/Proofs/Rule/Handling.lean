import ScriptSimplifier.Pass.Run
import ScriptSimplifier.Proofs.Rule.Additions
import ScriptSimplifier.Proofs.Store.Writing

/-!
# Handling references

A reference names an element only after it was given out, and says from then on whether the element
is a list.  So a store may change in any way that keeps this (`Store.Retains`), and a place is made
of such references, from a root that is no list (`Cursor.Issued`).  A rule may do whatever it likes
with what it is given, except to make up references: it *handles* them (`Rule.Handles`), where what
has to be true of the things it remembers is left to the rule.
-/

namespace ScriptSimplifier

namespace Store

/-! ## Stores that keep what they gave out -/

/-- What was given out stays given out, and a list stays a list. -/
structure Retains (s t : Store) : Prop where
  known : ∀ r, s.Known r → t.Known r
  isList : ∀ r, s.Known r → t.isList r = s.isList r

variable {s t u : Store} {x : Ref} {fresh : Option Ref}

theorem Retains.refl (s : Store) : s.Retains s := ⟨fun _ hr => hr, fun _ _ => rfl⟩

theorem Retains.trans (h : s.Retains t) (h' : t.Retains u) : s.Retains u := by
  refine ⟨fun r hr => h'.known r (h.known r hr), ?_⟩
  intro r hr
  rw [h'.isList r (h.known r hr), h.isList r hr]

theorem Retains.knownAt (h : s.Retains t) {e : Option Ref} (he : s.KnownAt e) : t.KnownAt e :=
  fun r hr => h.known r (he r hr)

theorem Retains.any_isList (h : s.Retains t) {e : Option Ref} (he : s.KnownAt e) :
    e.any t.isList = e.any s.isList := by
  cases e with
  | none => rfl
  | some r => exact h.isList r (knownAt_some.mp he)

theorem Writes.retains (h : s.Writes x fresh t) : s.Retains t :=
  ⟨fun _ hr => h.known hr, fun _ hr => h.isList hr⟩

end Store

namespace Cursor

/-! ## Places made of what was given out -/

/-- A place all of whose elements were given out, below a root that is no list. -/
def Issued (s : Store) : Cursor → Prop
  | .root e => s.KnownAt e ∧ e.any s.isList = false
  | .step parent _ e => parent.Issued s ∧ s.KnownAt e

variable {s t : Store} {c d : Cursor}

theorem Issued.knownAt (h : c.Issued s) : s.KnownAt c.element := by
  cases c with
  | root e => exact h.1
  | step parent key e => exact h.2

theorem Issued.retain (h : c.Issued s) (hst : s.Retains t) : c.Issued t := by
  induction c with
  | root e =>
    refine ⟨hst.knownAt h.1, ?_⟩
    rw [hst.any_isList h.1]
    exact h.2
  | step parent key e ih => exact ⟨ih h.1, hst.knownAt h.2⟩

theorem Issued.child (h : c.Issued s) (hs : s.Closed) (key : Key) : (c.child s key).Issued s := by
  refine ⟨h, ?_⟩
  intro x hx
  cases helement : c.element with
  | none => rw [helement] at hx; cases key <;> cases hx
  | some r =>
    rw [helement] at hx
    exact hs r x (holds_elementBelow hx)

theorem Issued.children (h : c.Issued s) (hs : s.Closed) (hd : d ∈ c.children s) : d.Issued s := by
  obtain ⟨key, rfl⟩ := mem_children hd
  exact h.child hs key

theorem Issued.parent (h : c.Issued s) (hd : d ∈ c.parent?.toList) : d.Issued s := by
  cases c with
  | root e => cases hd
  | step parent key e =>
    obtain rfl := List.mem_singleton.mp hd
    exact h.1

/-- Refreshing changes positions only. -/
theorem refresh_issued (h : c.refresh s = .ok d) :
    d.element = c.element ∧ (c.Issued s → d.Issued s) := by
  induction refreshes_of_refresh h with
  | root e => exact ⟨rfl, id⟩
  | field hparent _ _ _ ih | index hparent _ _ _ _ ih =>
    exact ⟨rfl, fun hissued => ⟨(ih hparent.refresh).2 hissued.1, hissued.2⟩⟩

theorem refresh?_issued (h : c.refresh? s = some d) :
    d.element = c.element ∧ (c.Issued s → d.Issued s) :=
  refresh_issued (refresh_of_refresh? h)

/-- A list is walked again from the node that owns it. -/
theorem Issued.retraced (h : c.Issued s) :
    c.nodePlace? s = some (Run.retraced s c) ∧ (Run.retraced s c).Issued s ∧
      (Run.retraced s c).element.any s.isList = false := by
  induction c with
  | root e =>
    refine ⟨?_, h, h.2⟩
    rw [nodePlace?, h.2]
    rfl
  | step parent key e ih =>
    rw [nodePlace?, Run.retraced]
    by_cases hlist : e.any s.isList = true
    · rw [if_pos hlist, if_pos hlist]
      exact ih h.1
    · rw [if_neg hlist, if_neg hlist]
      exact ⟨rfl, h, Bool.eq_false_iff.mpr hlist⟩

end Cursor

/-! ## Rules that make up no references -/

variable {σ : Type} {safe : Workspace → σ → Prop} {w : Workspace}

/-- What may be true of a memory goes on to be true while edits are applied. -/
def Lasting (safe : Workspace → σ → Prop) : Prop :=
  ∀ w memory store, safe w memory → w.store.Retains store → safe { w with store } memory

/-- What a rule answers in a store is made of what was given out. -/
structure Proposal.Handled (safe : Workspace → σ → Prop) (s : Store) (proposal : Proposal σ) :
    Prop where
  retains : s.Retains proposal.workspace.store
  closed : proposal.workspace.store.Closed
  memory : safe proposal.workspace proposal.memory
  places : ∀ edit, proposal.edit = some edit → ∀ d ∈ edit.invalidated,
    d.Issued proposal.workspace.store

/-- A rule that makes up no references, provided that its memory is as it left it. -/
def Rule.Handles (safe : Workspace → σ → Prop) (rule : Rule σ) : Prop :=
  ∀ place w memory proposal, w.store.Closed → place.Issued w.store → safe w memory →
    rule.propose place w memory = .ok proposal → proposal.Handled safe w.store

/-- The rules together make up no references either. -/
theorem Run.handled_offer {rules : List (Rule σ)} (hrules : ∀ rule ∈ rules, rule.Handles safe)
    {place : Cursor} {memory : σ} (hw : w.store.Closed) (hplace : place.Issued w.store)
    (hmemory : safe w memory) : (offer place w memory rules).proposal.Handled safe w.store := by
  have hidle : ∀ {w : Workspace} {memory : σ}, w.store.Closed → safe w memory →
      Proposal.Handled safe w.store ⟨none, w, memory⟩ :=
    fun hw hmemory => ⟨.refl _, hw, hmemory, fun _ h => nomatch h⟩
  induction rules generalizing w memory with
  | nil => exact hidle hw hmemory
  | cons rule rest ih =>
    obtain ⟨hrule, hrest⟩ := List.forall_mem_cons.mp hrules
    unfold offer
    split
    · exact hidle hw hmemory
    · rename_i hpropose
      exact hrule place w memory _ hw hplace hmemory hpropose
    · -- a rule that declines may have added something before the next one is asked
      rename_i hpropose
      have hdeclined := hrule place w memory _ hw hplace hmemory hpropose
      have hoffer := ih hrest hdeclined.closed (hplace.retain hdeclined.retains) hdeclined.memory
      exact ⟨hdeclined.retains.trans hoffer.retains, hoffer.closed, hoffer.memory, hoffer.places⟩

/-- An edit of places that were given out leaves what was given out, also if it fails. -/
theorem Edit.apply_retains (pool : Option Pool) {edit : Edit} {s : Store} (hs : s.Closed)
    (hplaces : ∀ d ∈ edit.invalidated, d.Issued s) :
    s.Retains (edit.apply pool s).1 ∧ (edit.apply pool s).1.Closed := by
  refine Edit.apply_keeps (P := fun t => s.Retains t ∧ t.Closed) edit s ?_ ⟨.refl s, hs⟩
  intro t u target holder fresh ht _ hfresh hwrites
  obtain ⟨hretains, hclosed⟩ := ht
  refine ⟨hretains.trans hwrites.retains, hwrites.closed hclosed ?_⟩
  rcases hfresh with rfl | ⟨d, hd, rfl⟩
  · exact t.knownAt_none
  · exact hretains.knownAt (hplaces d hd).knownAt

end ScriptSimplifier
