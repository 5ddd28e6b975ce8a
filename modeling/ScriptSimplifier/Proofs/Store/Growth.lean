import Mathlib.Order.Interval.Finset.Nat
import Mathlib.Order.Interval.Multiset
import ScriptSimplifier.Proofs.Store.Census
import ScriptSimplifier.Proofs.Store.Typing
import ScriptSimplifier.Store.Pool

/-!
# Growing stores and workspaces

Building something new never changes what is there: the store gets more cells and the pool gets
entries for some of them.  Everything that is computed from the elements below a known reference
stays as it is (`Extends.fold`), in particular the tree (`Extends.tree`).
-/

namespace ScriptSimplifier

namespace Store

/-! ## Extended stores -/

/-- A place that holds nothing unknown. -/
def KnownAt (s : Store) (e : Option Ref) : Prop := ∀ r, e = some r → s.Known r

@[simp] theorem knownAt_none (s : Store) : s.KnownAt none := by
  intro r h
  cases h

@[simp] theorem knownAt_some {s : Store} {r : Ref} : s.KnownAt (some r) ↔ s.Known r := by
  simp [KnownAt]

theorem Closed.knownAt {s : Store} (hc : s.Closed) {r : Ref} {e : Option Ref}
    (he : e ∈ s.below r) : s.KnownAt e := by
  rintro c rfl
  exact hc r c he

/-- Everything that a store knows is in another one too, and unchanged. -/
structure Extends (s t : Store) : Prop where
  size : s.cells.size ≤ t.cells.size
  get : ∀ r, s.Known r → t.get r = s.get r

theorem Extends.refl (s : Store) : s.Extends s := ⟨Nat.le_refl _, fun _ _ => rfl⟩

theorem Extends.known {s t : Store} (h : s.Extends t) {r : Ref} (hr : s.Known r) :
    t.Known r := by
  cases r with
  | emptyStatement => trivial
  | null => trivial
  | cell n => exact Nat.lt_of_lt_of_le hr h.size

theorem Extends.knownAt {s t : Store} (h : s.Extends t) {e : Option Ref} (he : s.KnownAt e) :
    t.KnownAt e := fun r hr => h.known (he r hr)

theorem Extends.trans {s t u : Store} (h : s.Extends t) (h' : t.Extends u) : s.Extends u :=
  ⟨Nat.le_trans h.size h'.size, fun r hr => by rw [h'.get r (h.known hr), h.get r hr]⟩

theorem extends_push (s : Store) (c : Cell) : s.Extends (s.push c) :=
  ⟨by simp, fun _ hr => get_push c hr⟩

theorem Extends.below {s t : Store} (h : s.Extends t) {r : Ref} (hr : s.Known r) :
    t.below r = s.below r := by
  rw [Store.below, h.get r hr, Store.below]

theorem Extends.kind? {s t : Store} (h : s.Extends t) {r : Ref} (hr : s.Known r) :
    t.kind? r = s.kind? r := by
  simp only [Store.kind?, label?, h.get r hr]

theorem Extends.isIn {s t : Store} (h : s.Extends t) {e : Option Ref} (he : s.KnownAt e)
    (category : Category) : t.isIn category e = s.isIn category e := by
  cases e with
  | none => rfl
  | some r => simp [Store.isIn, h.kind? (knownAt_some.mp he)]

theorem Extends.admits {s t : Store} (h : s.Extends t) (hc : s.Closed) {e : Option Ref}
    (he : s.KnownAt e) (strict : Strictness) (f : Field) :
    t.admits strict f e = s.admits strict f e := by
  refine admits_congr ?_ ?_
  · rintro r rfl
    exact h.get r (knownAt_some.mp he)
  · rintro r c rfl hc'
    exact h.kind? (hc r c hc')

/-- A computation from the children upward does not see the new cells. -/
theorem Extends.fold {β : Type*} {base : β} {step step' : Ref → List β → β} {s t : Store}
    (h : s.Extends t) (hs : s.Acyclic) (hc : s.Closed) (ht : t.Acyclic)
    (hstep : ∀ r, s.Known r → step' r = step r) {e : Option Ref} (he : s.KnownAt e) :
    t.fold base step' e = s.fold base step e := by
  cases e with
  | none => simp
  | some r =>
    exact hs.fold_congr ht s.Known (fun p c _ hpc => hc p c hpc) (fun r hr => h.below hr) hstep r
      (knownAt_some.mp he)

theorem Extends.tree {s t : Store} (h : s.Extends t) (hs : s.Acyclic) (hc : s.Closed)
    (ht : t.Acyclic) {e : Option Ref} (he : s.KnownAt e) : t.tree e = s.tree e := by
  rw [tree_eq_fold, tree_eq_fold]
  refine h.fold hs hc ht (fun r hr => ?_) he
  funext below
  simp only [assemble, h.get r hr]

/-- The same down to any depth; the stores may have cycles. -/
theorem Extends.unfold {s t : Store} (h : s.Extends t) (hc : s.Closed) {e : Option Ref}
    (he : s.KnownAt e) (depth : Nat) : t.unfold depth e = s.unfold depth e := by
  induction depth generalizing e with
  | zero => rfl
  | succ depth ih =>
    cases e with
    | none => rfl
    | some r =>
      have hr := knownAt_some.mp he
      have hbelow : ∀ e ∈ (s.get r).below, t.unfold depth e = s.unfold depth e :=
        fun e hmem => ih (hc.knownAt hmem)
      rw [Store.unfold, Store.unfold, h.get r hr]
      cases hget : s.get r with
      | node label children =>
        rw [hget] at hbelow
        exact congrArg (Tree.node label) (List.map_congr_left hbelow)
      | list items =>
        rw [hget] at hbelow
        exact congrArg Tree.list (List.map_congr_left hbelow)

theorem Extends.tally {M : Type*} [AddCommMonoid M] {own own' : Ref → M}
    {shared shared' : Ref → Bool} {s t : Store} (h : s.Extends t) (hs : s.Acyclic) (hc : s.Closed)
    (ht : t.Acyclic) (hshared : ∀ r, s.Known r → shared' r = shared r)
    (hown : ∀ r, s.Known r → own' r = own r) {e : Option Ref} (he : s.KnownAt e) :
    t.tally shared' own' e = s.tally shared own e := by
  refine h.fold hs hc ht (fun r hr => ?_) he
  funext parts
  rw [hshared r hr, hown r hr]

/-! ## Stores of trees -/

/-- A store of trees: nothing lies below itself, all references are known and all nodes obey the
schema. -/
structure Orderly (strict : Strictness) (s : Store) : Prop where
  acyclic : s.Acyclic
  closed : s.Closed
  typed : s.Typed strict

theorem Orderly.push {strict : Strictness} {s : Store} (hs : s.Orderly strict) {c : Cell}
    (hknown : ∀ e ∈ c.below, s.KnownAt e)
    (hnode : ∀ label kids, c = .node label kids → s.NodeTyped strict label kids) :
    (s.push c).Orderly strict := by
  have hkids : ∀ k, some k ∈ c.below → s.Known k := fun k hk => hknown _ hk k rfl
  exact ⟨hs.acyclic.push hs.closed hkids, hs.closed.push hkids, hs.typed.push hs.closed hkids hnode⟩

/-! ## New cells -/

/-- The cells that a store has and another one before it had not. -/
def since (s t : Store) : Multiset Ref :=
  (Multiset.Ico s.cells.size t.cells.size).map Ref.cell

@[simp] theorem since_self (s : Store) : s.since s = 0 := by simp [since]

theorem since_add {s t u : Store} (h : s.cells.size ≤ t.cells.size)
    (h' : t.cells.size ≤ u.cells.size) : s.since t + t.since u = s.since u := by
  rw [since, since, since, ← Multiset.map_add, Multiset.Ico_add_Ico_eq_Ico h h']

@[simp] theorem since_push (s : Store) (c : Cell) : s.since (s.push c) = {s.next} := by
  rw [since, size_push]
  have hIco : Multiset.Ico s.cells.size (s.cells.size + 1) = {s.cells.size} := by
    ext n
    rw [Multiset.count_eq_of_nodup (Multiset.nodup_Ico), Multiset.count_singleton]
    simp only [Multiset.mem_Ico]
    congr 1
    exact propext (by omega)
  rw [hIco]
  rfl

theorem nodup_since (s t : Store) : (s.since t).Nodup := by
  refine Multiset.Nodup.map_on ?_ (Multiset.nodup_Ico)
  intro a _ b _ hab
  exact Ref.cell.inj hab

theorem not_known_of_mem_since {s t : Store} {r : Ref} (h : r ∈ s.since t) : ¬ s.Known r := by
  obtain ⟨n, hn, rfl⟩ := Multiset.mem_map.mp h
  rw [Multiset.mem_Ico] at hn
  simp only [Known]
  omega

end Store

/-! ## Grown workspaces -/

namespace Pool

theorem valueOf?_eq_some {p : Pool} {r : Ref} {v : Value} (h : p.valueOf? r = some v) :
    (v, r) ∈ p.entries := by
  obtain ⟨⟨v', r'⟩, hfind, rfl⟩ := Option.map_eq_some_iff.mp h
  have hr : r' = r := by simpa using List.find?_some hfind
  subst hr
  exact List.mem_of_find?_eq_some hfind

theorem isConstant_iff {p : Pool} {r : Ref} :
    p.isConstant (some r) = true ↔ ∃ v, (v, r) ∈ p.entries := by
  constructor
  · intro h
    obtain ⟨v, hv⟩ := Option.isSome_iff_exists.mp (by simpa [isConstant] using h)
    exact ⟨v, valueOf?_eq_some hv⟩
  · rintro ⟨v, hv⟩
    simp only [isConstant, valueOf?, Option.any_some, Option.isSome_map, List.find?_isSome]
    exact ⟨(v, r), hv, by simp⟩

theorem find?_eq_some {p : Pool} {r : Ref} {v : Value} (h : p.find? v = some r) :
    (v, r) ∈ p.entries := by
  obtain ⟨⟨v', r'⟩, hfind, rfl⟩ := Option.map_eq_some_iff.mp h
  have hv : v' = v := by simpa using List.find?_some hfind
  subst hv
  exact List.mem_of_find?_eq_some hfind

theorem find?_eq_none {p : Pool} {v : Value} (h : p.find? v = none) (r : Ref) :
    (v, r) ∉ p.entries := by
  intro hmem
  simp only [find?, Option.map_eq_none_iff, List.find?_eq_none] at h
  exact h (v, r) hmem (by simp)

end Pool

namespace Workspace

/-- A workspace with more cells, and a pool with entries for some of them. -/
structure Grows (w w' : Workspace) : Prop where
  store : w.store.Extends w'.store
  pool : ∃ more, w'.pool.entries = w.pool.entries ++ more ∧ ∀ x ∈ more, ¬ w.store.Known x.2

theorem Grows.refl (w : Workspace) : w.Grows w := ⟨.refl _, [], by simp⟩

theorem Grows.trans {w w' w'' : Workspace} (h : w.Grows w') (h' : w'.Grows w'') :
    w.Grows w'' := by
  obtain ⟨more, hmore, hnew⟩ := h.pool
  obtain ⟨more', hmore', hnew'⟩ := h'.pool
  refine ⟨h.store.trans h'.store, more ++ more', by rw [hmore', hmore, List.append_assoc], ?_⟩
  intro x hx
  rcases List.mem_append.mp hx with hx | hx
  · exact hnew x hx
  · exact fun hk => hnew' x hx (h.store.known hk)

theorem Grows.valueOf? {w w' : Workspace} (h : w.Grows w') {r : Ref} (hr : w.store.Known r) :
    w'.pool.valueOf? r = w.pool.valueOf? r := by
  obtain ⟨more, hmore, hnew⟩ := h.pool
  have hnone : more.find? (·.2 == r) = none := by
    rw [List.find?_eq_none]
    intro x hx hxr
    have hxr' : x.2 = r := by simpa using hxr
    exact hnew x hx (hxr' ▸ hr)
  simp [Pool.valueOf?, hmore, List.find?_append, hnone]

theorem Grows.mem_entries {w w' : Workspace} (h : w.Grows w') {x : Value × Ref}
    (hx : x ∈ w.pool.entries) : x ∈ w'.pool.entries := by
  obtain ⟨more, hmore, _⟩ := h.pool
  rw [hmore]
  exact List.mem_append_left _ hx

/-- The elements that may be held by several places: the empty statement and the canonical
fragments. -/
def shares (w : Workspace) (r : Ref) : Bool :=
  r == .emptyStatement || w.pool.isConstant (some r)

theorem Grows.isConstant {w w' : Workspace} (h : w.Grows w') {r : Ref} (hr : w.store.Known r) :
    w'.pool.isConstant (some r) = w.pool.isConstant (some r) := by
  simp [Pool.isConstant, h.valueOf? hr]

theorem Grows.shares {w w' : Workspace} (h : w.Grows w') {r : Ref} (hr : w.store.Known r) :
    w'.shares r = w.shares r := by
  simp [Workspace.shares, h.isConstant hr]

end Workspace

end ScriptSimplifier
