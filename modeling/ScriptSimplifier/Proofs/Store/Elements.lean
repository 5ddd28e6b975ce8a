import Mathlib.Data.List.Basic
import ScriptSimplifier.Store.Child

/-!
# Elements of a store

What the store reads after it was changed or extended, and which references an element holds.  A
reference is *known* to a store if it is a shared node or a cell of the store; a store is *closed*
if its elements hold known references only.  In a closed store a new element is held by nothing,
which is what lets later proofs treat the nodes that a rule adds as fresh.
-/

namespace ScriptSimplifier

/-! ## Children of a cell -/

/-- The references that an element holds, one for each of its places. -/
def Cell.below : Cell → List (Option Ref)
  | .node _ children => children
  | .list items => items

/-- The same element with other references in its places. -/
def Cell.refill (children : List (Option Ref)) : Cell → Cell
  | .node label _ => .node label children
  | .list _ => .list children

@[simp] theorem Cell.below_refill (children : List (Option Ref)) (c : Cell) :
    (c.refill children).below = children := by
  cases c <;> rfl

@[simp] theorem Cell.refill_below (c : Cell) : c.refill c.below = c := by
  cases c <;> rfl

namespace Store

/-- The references that an element holds. -/
def below (s : Store) (r : Ref) : List (Option Ref) := (s.get r).below

/-- One element holds another in one of its places. -/
def Holds (s : Store) (p c : Ref) : Prop := some c ∈ s.below p

/-- A reference that was given out. -/
def Known (s : Store) : Ref → Prop
  | .cell n => n < s.cells.size
  | _ => True

/-- Elements hold only references that were given out. -/
def Closed (s : Store) : Prop := ∀ p c, s.Holds p c → s.Known c

/-! ## Reading -/

@[simp] theorem get_emptyStatement (s : Store) :
    s.get .emptyStatement = .node .emptyStatement [] := rfl

@[simp] theorem get_null (s : Store) : s.get .null = .node .nullLiteral [] := rfl

theorem get_unknown {s : Store} {r : Ref} (h : ¬ s.Known r) :
    s.get r = .node .emptyStatement [] := by
  cases r with
  | emptyStatement => exact absurd trivial h
  | null => exact absurd trivial h
  | cell n =>
    have hn : s.cells[n]? = none := by
      simpa [Known] using h
    simp [get, hn]

theorem below_node {s : Store} {r : Ref} {label : Label} {kids : List (Option Ref)}
    (h : s.get r = .node label kids) : s.below r = kids := by
  rw [below, h, Cell.below]

theorem below_list {s : Store} {r : Ref} {items : List (Option Ref)} (h : s.get r = .list items) :
    s.below r = items := by
  rw [below, h, Cell.below]

theorem holds_node_iff {s : Store} {r c : Ref} {label : Label} {kids : List (Option Ref)}
    (h : s.get r = .node label kids) : s.Holds r c ↔ some c ∈ kids := by
  rw [Holds, below_node h]

theorem holds_list_iff {s : Store} {r c : Ref} {items : List (Option Ref)}
    (h : s.get r = .list items) : s.Holds r c ↔ some c ∈ items := by
  rw [Holds, below_list h]

/-- Only cells of the store hold anything. -/
theorem Holds.cell {s : Store} {p c : Ref} (h : s.Holds p c) :
    ∃ n, p = .cell n ∧ n < s.cells.size := by
  cases p with
  | emptyStatement => simp [Holds, below, Cell.below] at h
  | null => simp [Holds, below, Cell.below] at h
  | cell n =>
    refine ⟨n, rfl, ?_⟩
    by_contra hn
    have hget := get_unknown (s := s) (r := .cell n) hn
    simp [Holds, below, hget, Cell.below] at h

theorem Holds.known {s : Store} {p c : Ref} (h : s.Holds p c) : s.Known p := by
  obtain ⟨n, rfl, hn⟩ := h.cell
  exact hn

/-- The child of a node under a name is what the member read under that name holds. -/
theorem child_node {s : Store} {r : Ref} {label : Label} {kids : List (Option Ref)}
    (h : s.get r = .node label kids) (name : String) :
    s.child r name =
      (label.kind.reads? name).bind fun m => (kids[label.kind.members.idxOf m]?).join := by
  simp only [child, kind?, label?, h, Option.map_some, Option.bind_some]
  refine congrArg _ (funext fun m => ?_)
  rw [member, h]

theorem child_list {s : Store} {r : Ref} {items : List (Option Ref)} (h : s.get r = .list items)
    (name : String) : s.child r name = none := by
  rw [child, kind?, label?, h, Option.map_none, Option.bind_none, Option.bind_none]

/-- The children of an element depend on nothing but the element. -/
theorem child_congr {s t : Store} {r : Ref} (h : t.get r = s.get r) (name : String) :
    t.child r name = s.child r name := by
  cases hr : s.get r with
  | node label kids => rw [child_node hr, child_node (h.trans hr)]
  | list items => rw [child_list hr, child_list (h.trans hr)]

/-- The child under a name is held. -/
theorem holds_child {s : Store} {r c : Ref} {name : String} (h : s.child r name = some c) :
    s.Holds r c := by
  cases hget : s.get r with
  | list items => simp [child_list hget] at h
  | node label kids =>
    rw [child_node hget] at h
    obtain ⟨m, -, hkid⟩ := Option.bind_eq_some_iff.mp h
    rw [holds_node_iff hget]
    exact List.mem_of_getElem? (Option.join_eq_some_iff.mp hkid)

/-- The item at a position is held. -/
theorem holds_item {s : Store} {r c : Ref} {i : Int} (h : s.itemAt? r i = some (some c)) :
    s.Holds r c := by
  cases hget : s.get r with
  | node label kids => simp [itemAt?, itemsOf, items?, hget] at h
  | list items =>
    rw [Holds, below, hget]
    simp only [itemAt?, itemsOf, items?, hget, Option.bind_some, Option.getD_some] at h
    split at h
    · exact List.mem_of_getElem? h
    · cases h

/-! ## Changing -/

theorem get_set_ne {s : Store} {x r : Ref} (c : Cell) (h : r ≠ x) :
    (s.set x c).get r = s.get r := by
  cases x with
  | emptyStatement => rfl
  | null => rfl
  | cell n =>
    cases r with
    | emptyStatement => rfl
    | null => rfl
    | cell m =>
      have hne : n ≠ m := fun he => h (by rw [he])
      simp [get, set, hne]

theorem get_set_self {s : Store} {n : Nat} (c : Cell) (h : n < s.cells.size) :
    (s.set (.cell n) c).get (.cell n) = c := by
  simp [get, set, h]

@[simp] theorem size_set (s : Store) (x : Ref) (c : Cell) :
    (s.set x c).cells.size = s.cells.size := by
  cases x <;> simp [set]

@[simp] theorem known_set {s : Store} {x : Ref} {c : Cell} {r : Ref} :
    (s.set x c).Known r ↔ s.Known r := by
  cases r <;> simp [Known]

theorem set_set (s : Store) (x : Ref) (c d : Cell) : (s.set x c).set x d = s.set x d := by
  cases x with
  | emptyStatement => rfl
  | null => rfl
  | cell n =>
    simp only [set, Store.mk.injEq]
    ext i : 1
    · simp
    · simp

/-! ## Adding -/

/-- The store with one more cell. -/
def push (s : Store) (c : Cell) : Store := ⟨s.cells.push c⟩

/-- The reference of the next cell. -/
def next (s : Store) : Ref := .cell s.cells.size

@[simp] theorem size_push (s : Store) (c : Cell) : (s.push c).cells.size = s.cells.size + 1 := by
  simp [push]

theorem next_unknown (s : Store) : ¬ s.Known s.next := by
  simp [next, Known]

theorem next_known (s : Store) (c : Cell) : (s.push c).Known s.next := by
  simp [next, Known]

@[simp] theorem get_push_next (s : Store) (c : Cell) : (s.push c).get s.next = c := by
  simp [push, next, get]

theorem get_push {s : Store} {r : Ref} (c : Cell) (h : s.Known r) :
    (s.push c).get r = s.get r := by
  cases r with
  | emptyStatement => rfl
  | null => rfl
  | cell n =>
    have hne : n ≠ s.cells.size := by
      simp only [Known] at h
      omega
    simp [push, get, Array.getElem?_push, hne]

theorem Known.push {s : Store} {r : Ref} (h : s.Known r) (c : Cell) : (s.push c).Known r := by
  cases r with
  | emptyStatement => trivial
  | null => trivial
  | cell n =>
    simp only [Known, size_push] at h ⊢
    omega

/-- What is known after a cell was added is the new cell or was known before. -/
theorem Known.of_push {s : Store} {r : Ref} {c : Cell} (h : (s.push c).Known r) :
    r = s.next ∨ s.Known r := by
  cases r with
  | emptyStatement => exact .inr trivial
  | null => exact .inr trivial
  | cell n =>
    simp only [Known, size_push] at h
    by_cases hn : n = s.cells.size
    · exact .inl (by rw [hn]; rfl)
    · exact .inr (by simp only [Known]; omega)

end Store

/-- A label whose nodes are cells of their own: all but the two that are shared. -/
def Label.IsOwn (l : Label) : Prop := l ≠ .emptyStatement ∧ l ≠ .nullLiteral

theorem Label.shared_of_not_own {l : Label} (h : ¬ l.IsOwn) :
    l = .emptyStatement ∨ l = .nullLiteral := by
  by_contra hneither
  exact h (not_or.mp hneither)

namespace Store

theorem add_node (s : Store) {label : Label} (children : List (Option Ref)) (h : label.IsOwn) :
    s.add (.node label children) = (s.next, s.push (.node label children)) := by
  obtain ⟨he, hn⟩ := h
  cases label <;> first | rfl | exact absurd rfl he | exact absurd rfl hn

end Store

end ScriptSimplifier
