import Mathlib.Algebra.GroupWithZero.Nat
import Mathlib.Algebra.Order.BigOperators.Group.List
import Mathlib.Algebra.Order.Group.Nat
import Mathlib.Data.List.Chain
import Mathlib.Data.List.Nodup
import Mathlib.Data.List.Perm.Subperm
import Mathlib.Logic.Relation
import ScriptSimplifier.Proofs.Store.Elements

/-!
# Stores without cycles

In an *acyclic* store no element lies below itself.  A chain of elements, each held by the one
before, then repeats nothing, so it is not longer than the store has cells
(`Acyclic.chain_length`).  Hence everything that is computed from the children upward down to that
depth is computed in full: `fold_some` is the equation of such a computation without any depth, and
`tree_some` the one for the tree below a reference.
-/

namespace ScriptSimplifier

namespace Store

/-- No element lies below itself. -/
def Acyclic (s : Store) : Prop := WellFounded fun c p => s.Holds p c

/-- What holds of an element as soon as it holds of all that it holds, holds of every element. -/
theorem Acyclic.induction {s : Store} (hs : s.Acyclic) {motive : Ref → Prop}
    (step : ∀ r, (∀ c, s.Holds r c → motive c) → motive r) (r : Ref) : motive r :=
  WellFounded.induction hs r step

/-! ## Chains -/

/-- A chain downward repeats nothing. -/
theorem Acyclic.chain_nodup {s : Store} (hs : s.Acyclic) {l : List Ref}
    (hl : l.IsChain s.Holds) : l.Nodup := by
  have hwf : WellFounded (Relation.TransGen fun c p => s.Holds p c) := hs.transGen
  have hchain : l.IsChain (Relation.TransGen s.Holds) :=
    hl.imp fun _ _ h => Relation.TransGen.single h
  refine hchain.pairwise.imp ?_
  intro a b hab heq
  subst heq
  have hswap : Relation.TransGen (fun c p => s.Holds p c) a a :=
    Relation.transGen_swap.mpr hab
  exact hwf.asymmetric a a hswap hswap

/-- Every element of a chain but the last is a cell of the store. -/
theorem chain_dropLast_cell {s : Store} {l : List Ref} (hl : l.IsChain s.Holds) :
    ∀ r ∈ l.dropLast, ∃ n, r = .cell n ∧ n < s.cells.size := by
  induction l with
  | nil => simp
  | cons a rest ih =>
    cases rest with
    | nil => simp
    | cons b rest =>
      rw [List.isChain_cons_cons] at hl
      intro r hr
      rw [List.dropLast_cons_cons, List.mem_cons] at hr
      rcases hr with rfl | hr
      · exact hl.1.cell
      · exact ih hl.2 r hr

/-- The number of a cell. -/
private def cellNumber : Ref → Nat
  | .cell n => n
  | _ => 0

/-- Different cells contribute at most what all cells contribute. -/
theorem sum_cells_le {s : Store} (f : Ref → Nat) {l : List Ref} (hnodup : l.Nodup)
    (hcell : ∀ r ∈ l, ∃ n, r = .cell n ∧ n < s.cells.size) :
    (l.map f).sum ≤ ((List.range s.cells.size).map fun n => f (.cell n)).sum := by
  have hnumbers : (l.map cellNumber).Nodup := by
    refine List.Nodup.map_on ?_ hnodup
    intro a ha b hb hab
    obtain ⟨n, rfl, _⟩ := hcell a ha
    obtain ⟨m, rfl, _⟩ := hcell b hb
    exact congrArg Ref.cell hab
  have hrange : l.map cellNumber ⊆ List.range s.cells.size := by
    intro n hn
    obtain ⟨a, ha, rfl⟩ := List.mem_map.mp hn
    obtain ⟨m, rfl, hm⟩ := hcell a ha
    exact List.mem_range.mpr hm
  have hmap : l.map f = (l.map cellNumber).map fun n => f (.cell n) := by
    rw [List.map_map]
    refine List.map_congr_left fun r hr => ?_
    obtain ⟨n, rfl, -⟩ := hcell r hr
    rfl
  obtain ⟨l', hperm, hsub⟩ := List.subperm_of_subset hnumbers hrange
  rw [hmap, ← (hperm.map _).sum_eq]
  exact (hsub.map _).sum_le_sum fun _ _ => Nat.zero_le _

/-- A chain below an element is not longer than the store has cells. -/
theorem Acyclic.chain_length {s : Store} (hs : s.Acyclic) {r : Ref} {l : List Ref}
    (hl : (r :: l).IsChain s.Holds) : l.length ≤ s.cells.size := by
  have hnodup : (r :: l).dropLast.Nodup :=
    (hs.chain_nodup hl).sublist (List.dropLast_sublist _)
  have hlength := sum_cells_le (fun _ => 1) hnodup (chain_dropLast_cell hl)
  simpa using hlength

/-! ## Computations from the children upward -/

variable {β : Type*}

/-- A value for an element from the values of what it holds, down to a depth. -/
def foldWithin (s : Store) (base : β) (step : Ref → List β → β) :
    (depth : Nat) → Option Ref → β
  | 0, _ => base
  | _ + 1, none => base
  | depth + 1, some r => step r ((s.below r).map (s.foldWithin base step depth))

/-- A value for an element from the values of what it holds. -/
def fold (s : Store) (base : β) (step : Ref → List β → β) (e : Option Ref) : β :=
  s.foldWithin base step (s.cells.size + 2) e

variable {base : β} {step : Ref → List β → β}

@[simp] theorem foldWithin_none (s : Store) (depth : Nat) :
    s.foldWithin base step depth none = base := by
  cases depth <;> rfl

@[simp] theorem fold_none (s : Store) : s.fold base step none = base :=
  s.foldWithin_none _

/-- If one more level makes a difference, there is a chain down to that level. -/
theorem foldWithin_ne {s : Store} {depth : Nat} {r : Ref}
    (h : s.foldWithin base step depth (some r) ≠ s.foldWithin base step (depth + 1) (some r)) :
    ∃ l, l.length = depth ∧ (r :: l).IsChain s.Holds := by
  induction depth generalizing r with
  | zero => exact ⟨[], rfl, by simp⟩
  | succ depth ih =>
    have hmap : (s.below r).map (s.foldWithin base step depth) ≠
        (s.below r).map (s.foldWithin base step (depth + 1)) := by
      intro heq
      apply h
      show step r _ = step r _
      rw [heq]
    obtain ⟨e, he, hne⟩ : ∃ e ∈ s.below r,
        s.foldWithin base step depth e ≠ s.foldWithin base step (depth + 1) e := by
      by_contra hall
      push Not at hall
      exact hmap (List.map_congr_left hall)
    cases e with
    | none => simp at hne
    | some c =>
      obtain ⟨l, hlen, hl⟩ := ih hne
      exact ⟨c :: l, by simp [hlen], List.isChain_cons_cons.mpr ⟨he, hl⟩⟩

/-- Below the number of cells there is nothing left to compute. -/
theorem Acyclic.foldWithin_succ {s : Store} (hs : s.Acyclic) {depth : Nat}
    (hd : s.cells.size < depth) (e : Option Ref) :
    s.foldWithin base step (depth + 1) e = s.foldWithin base step depth e := by
  cases e with
  | none => simp
  | some r =>
    by_contra hne
    obtain ⟨l, hlen, hl⟩ := foldWithin_ne (Ne.symm hne)
    have := hs.chain_length hl
    omega

/-- The equation of a computation from the children upward. -/
theorem Acyclic.fold_some {s : Store} (hs : s.Acyclic) (r : Ref) :
    s.fold base step (some r) = step r ((s.below r).map (s.fold base step)) := by
  show step r ((s.below r).map (s.foldWithin base step (s.cells.size + 1))) = _
  congr 1
  refine List.map_congr_left fun e _ => ?_
  exact (hs.foldWithin_succ (by omega) e).symm

/-- Two computations agree on a set of elements that is closed under holding, if both stores and
both steps agree there. -/
theorem Acyclic.fold_congr {s t : Store} (hs : s.Acyclic) (ht : t.Acyclic)
    {step' : Ref → List β → β} (P : Ref → Prop)
    (hclosed : ∀ p c, P p → s.Holds p c → P c)
    (hbelow : ∀ r, P r → t.below r = s.below r)
    (hstep : ∀ r, P r → step' r = step r) (r : Ref) (hr : P r) :
    t.fold base step' (some r) = s.fold base step (some r) := by
  induction r using hs.induction with
  | step r ih =>
    rw [ht.fold_some, hs.fold_some, hbelow r hr, hstep r hr]
    congr 1
    refine List.map_congr_left fun e he => ?_
    cases e with
    | none => simp
    | some c => exact ih c he (hclosed r c hr he)

/-! ## Trees -/

/-- The tree of an element from the trees of what it holds. -/
def assemble (s : Store) (r : Ref) (below : List Tree) : Tree :=
  match s.get r with
  | .node label _ => .node label below
  | .list _ => .list below

theorem unfold_eq_foldWithin (s : Store) (depth : Nat) (e : Option Ref) :
    s.unfold depth e = s.foldWithin .missing s.assemble depth e := by
  induction depth generalizing e with
  | zero => rfl
  | succ depth ih =>
    cases e with
    | none => rfl
    | some r =>
      have hfun : s.unfold depth = s.foldWithin .missing s.assemble depth := funext ih
      cases hr : s.get r <;>
        simp [unfold, foldWithin, assemble, below, hr, Cell.below, hfun]

theorem tree_eq_fold (s : Store) (e : Option Ref) : s.tree e = s.fold .missing s.assemble e :=
  s.unfold_eq_foldWithin _ e

@[simp] theorem tree_none (s : Store) : s.tree none = .missing := by
  rw [tree_eq_fold, fold_none]

/-- The tree below a reference, by one step. -/
theorem Acyclic.tree_some {s : Store} (hs : s.Acyclic) (r : Ref) :
    s.tree (some r) = s.assemble r ((s.below r).map s.tree) := by
  have hfun : s.tree = s.fold .missing s.assemble := funext s.tree_eq_fold
  rw [hfun, hs.fold_some]

theorem Acyclic.tree_node {s : Store} (hs : s.Acyclic) {r : Ref} {label : Label}
    {children : List (Option Ref)} (hr : s.get r = .node label children) :
    s.tree (some r) = .node label (children.map s.tree) := by
  rw [hs.tree_some]
  simp [assemble, below, hr, Cell.below]

theorem Acyclic.tree_list {s : Store} (hs : s.Acyclic) {r : Ref} {items : List (Option Ref)}
    (hr : s.get r = .list items) : s.tree (some r) = .list (items.map s.tree) := by
  rw [hs.tree_some]
  simp [assemble, below, hr, Cell.below]

/-! ## Staying acyclic -/

/-- One element lies below another or is the same. -/
def Reaches (s : Store) (r x : Ref) : Prop := Relation.ReflTransGen s.Holds r x

/-- An element does not lie below what it holds. -/
theorem Acyclic.not_reaches {s : Store} (hs : s.Acyclic) {p c : Ref} (h : s.Holds p c) :
    ¬ s.Reaches c p := by
  intro hback
  have hloop : Relation.TransGen s.Holds p p := Relation.TransGen.head' h hback
  have hswap : Relation.TransGen (fun c p => s.Holds p c) p p :=
    Relation.transGen_swap.mpr hloop
  exact (WellFounded.transGen hs).asymmetric p p hswap hswap

theorem Closed.push {s : Store} (hc : s.Closed) {c : Cell}
    (hbelow : ∀ k, some k ∈ c.below → s.Known k) : (s.push c).Closed := by
  intro p k h
  by_cases hp : s.Known p
  · have hk : s.Holds p k := by
      simpa only [Holds, below, get_push c hp] using h
    exact (hc p k hk).push c
  · rcases h.known.of_push with rfl | hknown
    · rw [Holds, below, get_push_next] at h
      exact (hbelow k h).push c
    · exact absurd hknown hp

/-- A new element may hold anything that was there before. -/
theorem Acyclic.push {s : Store} (hs : s.Acyclic) (hc : s.Closed) {c : Cell}
    (hbelow : ∀ k, some k ∈ c.below → s.Known k) : (s.push c).Acyclic := by
  have hold : ∀ r, s.Known r → Acc (fun c' p => (s.push c).Holds p c') r := by
    intro r
    induction r using hs.induction with
    | step r ih =>
      intro hr
      refine Acc.intro r fun k hk => ?_
      have hk' : s.Holds r k := by
        simpa only [Holds, below, get_push c hr] using hk
      exact ih k hk' (hc r k hk')
  refine ⟨fun r => Acc.intro r fun k hk => ?_⟩
  rcases hk.known.of_push with rfl | hr
  · rw [Holds, below, get_push_next] at hk
    exact hold k (hbelow k hk)
  · have hk' : s.Holds r k := by
      simpa only [Holds, below, get_push c hr] using hk
    exact hold k (hc r k hk')

theorem below_set_ne {s : Store} {x r : Ref} (c : Cell) (h : r ≠ x) :
    (s.set x c).below r = s.below r := by
  rw [below, get_set_ne c h, below]

theorem below_set_self {s : Store} {n : Nat} (c : Cell) (h : n < s.cells.size) :
    (s.set (.cell n) c).below (.cell n) = c.below := by
  rw [below, get_set_self c h]

/-- An element may be made to hold what it does not lie below. -/
theorem Acyclic.set {s : Store} (hs : s.Acyclic) {n : Nat} (hn : n < s.cells.size) {c : Cell}
    (hfree : ∀ k, some k ∈ c.below → ¬ s.Reaches k (.cell n)) :
    (s.set (.cell n) c).Acyclic := by
  -- First what does not reach the changed cell, then that cell, then everything.
  have haway : ∀ r, ¬ s.Reaches r (.cell n) →
      Acc (fun c' p => (s.set (.cell n) c).Holds p c') r := by
    intro r
    induction r using hs.induction with
    | step r ih =>
      intro hr
      have hne : r ≠ .cell n := by
        rintro rfl
        exact hr Relation.ReflTransGen.refl
      refine Acc.intro r fun k hk => ?_
      have hk' : s.Holds r k := by
        simpa only [Holds, below_set_ne c hne] using hk
      exact ih k hk' fun hreach => hr (Relation.ReflTransGen.head hk' hreach)
  have hself : Acc (fun c' p => (s.set (.cell n) c).Holds p c') (.cell n) := by
    refine Acc.intro _ fun k hk => ?_
    rw [Holds, below_set_self c hn] at hk
    exact haway k (hfree k hk)
  refine ⟨fun r => ?_⟩
  induction r using hs.induction with
  | step r ih =>
    by_cases hr : r = .cell n
    · rw [hr]
      exact hself
    · refine Acc.intro r fun k hk => ?_
      have hk' : s.Holds r k := by
        simpa only [Holds, below_set_ne c hr] using hk
      exact ih k hk'

theorem Closed.set {s : Store} (hc : s.Closed) {x : Ref} {c : Cell}
    (hbelow : ∀ k, some k ∈ c.below → s.Known k) : (s.set x c).Closed := by
  intro p k h
  rw [known_set]
  by_cases hp : p = x
  · subst hp
    obtain ⟨n, rfl, hn⟩ := h.cell
    rw [size_set] at hn
    rw [Holds, below_set_self c hn] at h
    exact hbelow k h
  · rw [Holds, below_set_ne c hp] at h
    exact hc p k h

end Store

end ScriptSimplifier
