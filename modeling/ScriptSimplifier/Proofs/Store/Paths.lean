import Mathlib.Data.List.Forall2
import ScriptSimplifier.Proofs.Edits
import ScriptSimplifier.Proofs.Store.Growth

/-!
# Following keys

Keys lead from an element down to another one (`Store.follow`).  Elements are *alike* if they have
the same form and their places are related one by one; then a step with the same key leads to
related places (`Alike.elementBelow`).
-/

namespace ScriptSimplifier

namespace Store

/-- The element that keys lead to, one below the other. -/
def follow (s : Store) (e : Option Ref) (path : List Key) : Option Ref :=
  path.foldl (Cursor.elementBelow s) e

@[simp] theorem follow_nil (s : Store) (e : Option Ref) : s.follow e [] = e := rfl

@[simp] theorem follow_cons (s : Store) (e : Option Ref) (key : Key) (path : List Key) :
    s.follow e (key :: path) = s.follow (Cursor.elementBelow s e key) path := rfl

theorem follow_append (s : Store) (e : Option Ref) (path path' : List Key) :
    s.follow e (path ++ path') = s.follow (s.follow e path) path' :=
  List.foldl_append

variable {s t : Store} {r r' : Ref}

theorem Closed.elementBelow (hc : s.Closed) {e : Option Ref} (key : Key) :
    s.KnownAt (Cursor.elementBelow s e key) := by
  intro x hx
  cases e with
  | none => cases key <;> cases hx
  | some r => exact hc r x (Cursor.holds_elementBelow hx)

theorem Closed.follow (hc : s.Closed) {e : Option Ref} (he : s.KnownAt e) (path : List Key) :
    s.KnownAt (s.follow e path) := by
  induction path generalizing e with
  | nil => exact he
  | cons key path ih => exact ih (hc.elementBelow key)

/-! ## Alike elements -/

/-- Elements of the same form whose places are related one by one. -/
inductive Alike (R : Option Ref → Option Ref → Prop) : Cell → Cell → Prop
  | node {label : Label} {kids kids' : List (Option Ref)} : List.Forall₂ R kids kids' →
      Alike R (.node label kids) (.node label kids')
  | list {items items' : List (Option Ref)} : List.Forall₂ R items items' →
      Alike R (.list items) (.list items')

variable {R R' : Option Ref → Option Ref → Prop} {c d : Cell}

theorem Alike.refl (hR : ∀ e, R e e) (c : Cell) : Alike R c c := by
  cases c with
  | node label kids => exact .node (List.forall₂_same.mpr fun e _ => hR e)
  | list items => exact .list (List.forall₂_same.mpr fun e _ => hR e)

theorem Alike.mono (h : Alike R c d) (hR : ∀ e e', R e e' → R' e e') : Alike R' c d := by
  cases h with
  | node hkids => exact .node (hkids.imp hR)
  | list hitems => exact .list (hitems.imp hR)

theorem Alike.label? (h : Alike R (s.get r) (t.get r')) : t.label? r' = s.label? r := by
  rw [Store.label?, Store.label?]
  generalize s.get r = c at h ⊢
  generalize t.get r' = d at h ⊢
  cases h <;> rfl

/-- Putting something into a place keeps what is related to anything. -/
theorem Alike.refill_set (h : Alike R c d) {m : Option Ref} (hm : ∀ e, R e m) (i : Nat) :
    Alike R c (d.refill (d.below.set i m)) := by
  cases h with
  | node hkids => exact .node (forall₂_set hkids fun e _ => hm e)
  | list hitems => exact .list (forall₂_set hitems fun e _ => hm e)

/-- Items at the same position are related if all are. -/
theorem getElem?_related (hnone : R none none) {items items' : List (Option Ref)}
    (h : List.Forall₂ R items items') (i : Nat) : R items[i]?.join items'[i]?.join := by
  induction h generalizing i with
  | nil => simpa using hnone
  | cons he hrest ih =>
    cases i with
    | zero => simpa using he
    | succ i => simpa using ih i

/-- Children of the same name are related if all are. -/
theorem child_related (hnone : R none none) {label : Label} {kids kids' : List (Option Ref)}
    (hr : s.get r = .node label kids) (hr' : t.get r' = .node label kids')
    (h : List.Forall₂ R kids kids') (name : String) : R (s.child r name) (t.child r' name) := by
  rw [child_node hr, child_node hr']
  cases label.kind.reads? name with
  | none => exact hnone
  | some m => exact getElem?_related hnone h _

/-- A step from one element and from another of the same form leads to related places. -/
theorem Alike.elementBelow (h : Alike R (s.get r) (t.get r')) (hnone : R none none) (key : Key) :
    R (Cursor.elementBelow s (some r) key) (Cursor.elementBelow t (some r') key) := by
  generalize hr : s.get r = c at h
  generalize hr' : t.get r' = d at h
  cases h with
  | @node label kids kids' hkids =>
    cases key with
    | field name => exact child_related hnone hr hr' hkids name
    | index i => simpa [Cursor.elementBelow, itemAt?, itemsOf, items?, hr, hr'] using hnone
  | @list items items' hitems =>
    cases key with
    | field name =>
      show R (s.child r name) (t.child r' name)
      rwa [child_list hr, child_list hr']
    | index i =>
      simp only [Cursor.elementBelow, itemAt?, itemsOf, items?, hr, hr', Option.bind_some,
        Option.getD_some]
      split
      · exact getElem?_related hnone hitems i.toNat
      · simpa using hnone

end Store

end ScriptSimplifier
