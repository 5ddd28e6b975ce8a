import Mathlib.Order.Disjoint
import ScriptSimplifier.Proofs.Rule.Effects

/-!
# Trees under edits

A workspace is *intact* for a root if its tree reaches nothing twice but shared elements.  An edit
of the catalog gives one element of the tree new children.  This leaves the tree intact and lowers
its cost (`Intact.alter`), so validity, termination and the search for places that a rule still
wants to change can all be read off what happens to one element.
-/

namespace ScriptSimplifier

namespace Workspace

/-- The tree at a root reaches nothing twice but what is shared. -/
structure Intact (strict : Strictness) (root : Ref) (w : Workspace) : Prop
    extends w.Kept strict where
  root_known : w.store.Known root
  root_node : w.store.isList root = false
  nodup : (w.census (some root)).Nodup

variable {strict : Strictness} {root : Ref} {w w' : Workspace}

theorem Intact.grow (hw : w.Intact strict root) (h : w.Grows w') (hw' : w'.Kept strict) :
    w'.Intact strict root := by
  have hroot := Store.knownAt_some.mpr hw.root_known
  refine ⟨hw', h.store.known hw.root_known, ?_, ?_⟩
  · rw [Store.isList, h.store.get root hw.root_known]
    exact hw.root_node
  · rw [h.census hw.toCoherent hw'.toCoherent hroot]
    exact hw.nodup

/-- What lies below something known is known. -/
theorem Coherent.known_of_reaches (hw : w.Coherent strict) {r x : Ref} (hr : w.store.Known r)
    (h : w.store.Reaches r x) : w.store.Known x := by
  induction h with
  | refl => exact hr
  | tail _ hstep _ => exact hw.closed _ _ hstep

/-- Only cells are not shared. -/
theorem Kept.cell_of_own (hw : w.Kept strict) {x : Ref} (hknown : w.store.Known x)
    (hown : w.shares x = false) : ∃ n, x = .cell n ∧ n < w.store.cells.size := by
  cases x with
  | emptyStatement => simp [shares] at hown
  | null => simp [shares, Pool.isConstant_iff.mpr ⟨_, hw.null⟩] at hown
  | cell n => exact ⟨n, rfl, hknown⟩

/-! ## New children for one element -/

/-- The workspace in which an element has other children. -/
def refill (w : Workspace) (x : Ref) (kids : List (Option Ref)) : Workspace :=
  ⟨w.store.refill x kids, w.pool⟩

/-- Children that an element may be given in a workspace grown for them: they use what it held at
most once and otherwise only new cells, and they cost less. -/
structure Suits (strict : Strictness) (w w' : Workspace) (x : Ref) (kids : List (Option Ref)) :
    Prop where
  grows : w.Grows w'
  kept : w'.Kept strict
  known : ∀ e ∈ kids, w'.store.KnownAt e
  census : w'.censusAll kids ≤ w.censusAll (w.store.below x) + w.store.since w'.store
  cost : w'.costAll kids + (w'.store.refill x kids).weight x <
    w.costAll (w.store.below x) + w.store.weight x
  node : ∀ label old, w.store.get x = .node label old → w'.store.NodeTyped strict label kids
  list : ∀ items category, w.store.get x = .list items →
    (∀ e ∈ items, w.store.isIn category e = true) → ∀ e ∈ kids, w'.store.isIn category e = true

/-- The new children do not lie above the element. -/
theorem Suits.not_reaches {x : Ref} {kids : List (Option Ref)} (h : Suits strict w w' x kids)
    (hw : w.Kept strict) (hx : w.store.Known x) (hown : w.shares x = false) {k : Ref}
    (hk : some k ∈ kids) : ¬ w'.store.Reaches k x := by
  intro hreach
  have hown' : w'.shares x = false := by rw [h.grows.shares hx, hown]
  have hmem : x ∈ w'.censusAll kids :=
    Store.mem_censusAll.mpr ⟨k, hk, h.kept.acyclic.mem_census
      (fun _ _ hp hpc => h.kept.shares_holds hp hpc) hreach hown'⟩
  rcases Multiset.mem_add.mp (Multiset.mem_of_le h.census hmem) with hold | hnew
  · obtain ⟨c, hc, hxc⟩ := Store.mem_censusAll.mp hold
    exact hw.acyclic.not_reaches hc (hw.acyclic.reaches_of_mem_census hxc).1
  · exact Store.not_known_of_mem_since hnew hx

/-- Giving an element suitable children keeps the workspace. -/
theorem Suits.kept_refill {x : Ref} {kids : List (Option Ref)} (h : Suits strict w w' x kids)
    (hw : w.Kept strict) (hx : w.store.Known x) (hown : w.shares x = false) :
    (w'.refill x kids).Kept strict := by
  have hx' := h.grows.store.known hx
  have hown' : w'.shares x = false := by rw [h.grows.shares hx, hown]
  have hget : w'.store.get x = w.store.get x := h.grows.store.get x hx
  obtain ⟨n, rfl, hn⟩ := h.kept.cell_of_own hx' hown'
  have hbelow : ((w'.store.get (.cell n)).refill kids).below = kids := Cell.below_refill _ _
  have hknown : ∀ k, some k ∈ ((w'.store.get (.cell n)).refill kids).below → w'.store.Known k := by
    intro k hk
    rw [hbelow] at hk
    exact Store.knownAt_some.mp (h.known _ hk)
  have hold : ∀ items category, w'.store.get (.cell n) = .list items →
      (∀ e ∈ items, w'.store.isIn category e = true) →
      ∀ e ∈ kids, w'.store.isIn category e = true := by
    intro items category hitems hall
    rw [hget] at hitems
    refine h.list items category hitems fun e he => ?_
    have heknown : w.store.KnownAt e := hw.closed.knownAt (r := .cell n) (by
      rw [Store.below, hitems]
      exact he)
    rw [← h.grows.store.isIn heknown]
    exact hall e he
  -- what is not shared is no fragment, so the pool stays as it is
  have hfragment : ∀ v r, (v, r) ∈ w'.pool.entries → r ≠ .cell n := by
    rintro v r hv rfl
    rw [shares, Pool.isConstant_iff.mpr ⟨v, hv⟩, Bool.or_true] at hown'
    simp at hown'
  refine ⟨⟨⟨h.kept.acyclic.set hn ?_, h.kept.closed.set hknown, h.kept.typed.set hn ?_ hold⟩,
    ?_, ?_⟩, h.kept.null⟩
  · intro k hk
    rw [hbelow] at hk
    -- no child leads back to the element
    exact h.not_reaches hw hx hown hk
  · intro label old hlabel
    exact h.node label old (hget ▸ hlabel)
  · intro v r hv
    exact Store.known_set.mpr (h.kept.known v r hv)
  · intro v r hv
    obtain ⟨label, kids', hr, hspelling⟩ := h.kept.spelled v r hv
    exact ⟨label, kids', by rw [refill, Store.get_refill_ne kids (hfragment v r hv), hr],
      hspelling⟩

/-- A computation from the children upward does not see a change in what lies elsewhere. -/
theorem fold_refill {β : Type*} {base : β} {step step' : Ref → List β → β} {s : Store} {x : Ref}
    {kids : List (Option Ref)} (hs : s.Acyclic) (ht : (s.refill x kids).Acyclic)
    (hstep : ∀ r, r ≠ x → step' r = step r) {e : Option Ref}
    (he : ∀ r, e = some r → ¬ s.Reaches r x) :
    (s.refill x kids).fold base step' e = s.fold base step e := by
  cases e with
  | none => simp
  | some r =>
    have hne : ∀ {r}, ¬ s.Reaches r x → r ≠ x := by
      rintro r hr rfl
      exact hr Relation.ReflTransGen.refl
    refine hs.fold_congr ht (fun r => ¬ s.Reaches r x) ?_ ?_ ?_ r (he r rfl)
    · intro p c hp hpc hc
      exact hp (Relation.ReflTransGen.head hpc hc)
    · intro r hr
      exact Store.below_set_ne _ (hne hr)
    · intro r hr
      exact hstep r (hne hr)

/-- What does not lie above the changed element has the tree that it had before. -/
theorem tree_refill {s : Store} {x : Ref} {kids : List (Option Ref)} (hs : s.Acyclic)
    (ht : (s.refill x kids).Acyclic) {e : Option Ref} (he : ∀ r, e = some r → ¬ s.Reaches r x) :
    (s.refill x kids).tree e = s.tree e := by
  rw [Store.tree_eq_fold, Store.tree_eq_fold]
  refine fold_refill hs ht (fun r hr => ?_) he
  funext below
  simp only [Store.assemble, Store.get_refill_ne kids hr]

/-- What does not lie above the changed element is tallied as before. -/
theorem tally_refill {M : Type*} [AddCommMonoid M] {own own' : Ref → M} {s : Store} {x : Ref}
    {kids : List (Option Ref)} (hs : s.Acyclic) (ht : (s.refill x kids).Acyclic)
    {shared : Ref → Bool} (hown : ∀ r, r ≠ x → own' r = own r) {e : Option Ref}
    (he : ∀ r, e = some r → ¬ s.Reaches r x) :
    (s.refill x kids).tally shared own' e = s.tally shared own e := by
  refine fold_refill hs ht (fun r hr => ?_) he
  funext parts
  rw [hown r hr]

theorem tallyAll_refill {M : Type*} [AddCommMonoid M] {own own' : Ref → M} {s : Store} {x : Ref}
    {kids : List (Option Ref)} (hs : s.Acyclic) (ht : (s.refill x kids).Acyclic)
    {shared : Ref → Bool} (hown : ∀ r, r ≠ x → own' r = own r) {es : List (Option Ref)}
    (hes : ∀ r, some r ∈ es → ¬ s.Reaches r x) :
    (s.refill x kids).tallyAll shared own' es = s.tallyAll shared own es := by
  rw [Store.tallyAll, Store.tallyAll]
  congr 1
  refine List.map_congr_left fun e he => ?_
  exact tally_refill hs ht hown fun r hr => hes r (hr ▸ he)

/-- The tally of a tree changes by what the tally of the changed element changes. -/
theorem Suits.tally_exchange {M : Type*} [AddCommMonoid M] {x : Ref} {kids : List (Option Ref)}
    (h : Suits strict w w' x kids) (hw : w.Intact strict root) (hx : x ∈ w.census (some root))
    (own own' : Ref → M) (hown : ∀ r, r ≠ x → own' r = own r) :
    (w'.refill x kids).store.tally w'.shares own' (some root) +
        (own x + w'.store.tallyAll w'.shares own (w'.store.below x)) =
      w'.store.tally w'.shares own (some root) +
        (own' x + w'.store.tallyAll w'.shares own kids) := by
  obtain ⟨hreach, hxown⟩ := hw.acyclic.reaches_of_mem_census hx
  have hknown := hw.known_of_reaches hw.root_known hreach
  have hxown' : w'.shares x = false := by rw [h.grows.shares hknown, hxown]
  have ht := h.kept_refill hw.toKept hknown hxown
  have hcensus := h.grows.census hw.toCoherent h.kept.toCoherent
    (Store.knownAt_some.mpr hw.root_known)
  have hcount : (w'.store.census w'.shares (some root)).count x = 1 := by
    change (w'.census (some root)).count x = 1
    rw [hcensus]
    exact Multiset.count_eq_one_of_mem hw.nodup hx
  have hbelow : (w'.refill x kids).store.below x = kids := by
    have hcell := h.kept.cell_of_own (h.grows.store.known hknown) hxown'
    rw [Store.below, refill, Store.get_refill_self kids hcell, Cell.below_refill]
  have hkids : (w'.refill x kids).store.tallyAll w'.shares own' kids =
      w'.store.tallyAll w'.shares own kids :=
    tallyAll_refill h.kept.acyclic ht.acyclic hown fun r hr =>
      h.not_reaches hw.toKept hknown hxown hr
  have hexchange := h.kept.acyclic.tally_exchange ht.acyclic hxown'
    (fun r hr => Store.below_set_ne _ hr) hown root
  rwa [hcount, one_nsmul, one_nsmul, Store.tally_own h.kept.acyclic hxown',
    Store.tally_own ht.acyclic hxown', hbelow, hkids] at hexchange

/-- The tree with the new children consists of what it was made of and of new cells. -/
theorem Suits.census_refill {x : Ref} {kids : List (Option Ref)} (h : Suits strict w w' x kids)
    (hw : w.Intact strict root) (hx : x ∈ w.census (some root)) :
    (w'.refill x kids).census (some root) ≤ w.census (some root) + w.store.since w'.store := by
  obtain ⟨hreach, _⟩ := hw.acyclic.reaches_of_mem_census hx
  have hknown := hw.known_of_reaches hw.root_known hreach
  have hexchange := h.tally_exchange hw hx (fun r => ({r} : Multiset Ref)) _ (fun _ _ => rfl)
  have hbelow : w'.store.below x = w.store.below x := h.grows.store.below hknown
  have hold := h.grows.censusAll hw.toCoherent h.kept.toCoherent
    fun e (he : e ∈ w.store.below x) => hw.closed.knownAt he
  have hroot := h.grows.census hw.toCoherent h.kept.toCoherent
    (Store.knownAt_some.mpr hw.root_known)
  change (w'.refill x kids).census (some root) + ({x} + w'.censusAll (w'.store.below x)) =
    w'.census (some root) + ({x} + w'.censusAll kids) at hexchange
  rw [hbelow, hold, hroot] at hexchange
  refine le_of_add_le_add_right (a := {x} + w.censusAll (w.store.below x)) ?_
  rw [hexchange]
  calc w.census (some root) + ({x} + w'.censusAll kids)
      ≤ w.census (some root) +
          ({x} + (w.censusAll (w.store.below x) + w.store.since w'.store)) :=
        add_le_add_right (add_le_add_right h.census _) _
    _ = w.census (some root) + w.store.since w'.store +
          ({x} + w.censusAll (w.store.below x)) := by ac_rfl

/-- Giving an element of the tree suitable children leaves the tree intact. -/
theorem Intact.refill (hw : w.Intact strict root) {x : Ref} {kids : List (Option Ref)}
    (hx : x ∈ w.census (some root)) (h : Suits strict w w' x kids) :
    (w'.refill x kids).Intact strict root := by
  obtain ⟨hreach, hown⟩ := hw.acyclic.reaches_of_mem_census hx
  have hknown := hw.known_of_reaches hw.root_known hreach
  refine ⟨h.kept_refill hw.toKept hknown hown,
    Store.known_set.mpr (h.grows.store.known hw.root_known), ?_, ?_⟩
  · rw [Workspace.refill, Store.isList_refill]
    exact (hw.grow h.grows h.kept).root_node
  · refine Multiset.nodup_of_le (h.census_refill hw hx) ?_
    refine Multiset.nodup_add.mpr ⟨hw.nodup, Store.nodup_since _ _, ?_⟩
    refine Multiset.disjoint_left.mpr fun {y} hy hnew => ?_
    exact Store.not_known_of_mem_since hnew
      (hw.known_of_reaches hw.root_known (hw.acyclic.reaches_of_mem_census hy).1)

/-- Giving an element of the tree suitable children lowers the cost of the tree. -/
theorem Suits.cost_refill {x : Ref} {kids : List (Option Ref)} (h : Suits strict w w' x kids)
    (hw : w.Intact strict root) (hx : x ∈ w.census (some root)) :
    (w'.refill x kids).cost (some root) < w.cost (some root) := by
  obtain ⟨hreach, _⟩ := hw.acyclic.reaches_of_mem_census hx
  have hknown := hw.known_of_reaches hw.root_known hreach
  have hexchange := h.tally_exchange hw hx w'.store.weight (w'.refill x kids).store.weight
    (fun r hr => by
      rw [Store.weight, Workspace.refill, Store.get_refill_ne kids hr, Store.weight])
  have hbelow : w'.store.below x = w.store.below x := h.grows.store.below hknown
  have hold := h.grows.costAll hw.toCoherent h.kept.toCoherent
    fun e (he : e ∈ w.store.below x) => hw.closed.knownAt he
  have hroot := h.grows.cost hw.toCoherent h.kept.toCoherent
    (Store.knownAt_some.mpr hw.root_known)
  have hweight : w'.store.weight x = w.store.weight x := by
    rw [Store.weight, h.grows.store.get x hknown, Store.weight]
  change (w'.refill x kids).cost (some root) +
      (w'.store.weight x + w'.costAll (w'.store.below x)) =
    w'.cost (some root) + ((w'.store.refill x kids).weight x + w'.costAll kids) at hexchange
  rw [hbelow, hold, hroot, hweight] at hexchange
  have hcost := h.cost
  omega

end Workspace

open Workspace Sequences

variable {strict : Strictness} {root : Ref} {w w' : Workspace}

/-! ## What edits do to one element -/

/-- How an edit of the catalog changes the children of an element: one of them is replaced, or the
items of a list are rewritten. -/
inductive Alters (w w' : Workspace) (x : Ref) : List (Option Ref) → Prop
  | node {r n : Ref} {i : Nat} : NodeStep w r (some n) w' →
      (w.store.below x)[i]? = some (some r) → Alters w w' x ((w.store.below x).set i (some n))
  | list {items items' : List (Option Ref)} : w.store.get x = .list items →
      ListStep w items items' w' → Alters w w' x items'

theorem weight_refill {s : Store} {x : Ref} {kids : List (Option Ref)}
    (hx : ∃ n, x = .cell n ∧ n < s.cells.size) :
    (s.refill x kids).weight x =
      (match s.get x with | .node _ _ => 1 | .list _ => kids.length) := by
  rw [Store.weight, Store.get_refill_self kids hx]
  cases s.get x <;> rfl

/-- Replacing one child of a node keeps it typed if the new child has the categories of the old. -/
theorem NodeTyped.replace (hw : w.Kept strict) {x r n : Ref} {label : Label}
    {kids : List (Option Ref)} {i : Nat} (hx : w.store.get x = .node label kids)
    (hi : kids[i]? = some (some r)) (h : Replaces strict w w' r (some n)) :
    w'.store.NodeTyped strict label (kids.set i (some n)) := by
  have htyped := hw.typed x label kids hx
  refine ⟨htyped.operator, by rw [List.length_set, htyped.length], ?_⟩
  intro p hp
  obtain ⟨j, hj⟩ := List.mem_iff_getElem?.mp hp
  obtain ⟨hf, he⟩ := List.getElem?_zip_eq_some.mp hj
  by_cases hij : i = j
  · -- the place that is changed
    subst hij
    have hadmits := htyped.admits (p.1, some r)
      (List.mem_iff_getElem?.mpr ⟨i, List.getElem?_zip_eq_some.mpr ⟨hf, hi⟩⟩)
    have hlt : i < kids.length := (List.getElem?_eq_some_iff.mp hi).1
    have hn : p.2 = some n := by simpa [List.getElem?_set_self hlt] using he.symm
    obtain ⟨hrnode, hnnode⟩ := h.isNode
    obtain ⟨hsingle, hin⟩ := (Store.admits_node hrnode).mp hadmits
    rw [hn, Store.admits_node hnnode]
    refine ⟨hsingle, ?_⟩
    rcases h.category _ hin with ⟨hnone, _⟩ | hin'
    · simp at hnone
    · exact hin'
  · -- the other places hold what they held
    rw [List.getElem?_set_ne hij] at he
    have hadmits := htyped.admits p
      (List.mem_iff_getElem?.mpr ⟨j, List.getElem?_zip_eq_some.mpr ⟨hf, he⟩⟩)
    rwa [h.builds.grows.store.admits hw.closed
      (knownAt_of_node hw.toCoherent hx _ (List.mem_of_getElem? he))]

/-- Replacing one child. -/
theorem Replaces.suits (hw : w.Kept strict) {x r n : Ref} {i : Nat}
    (hi : (w.store.below x)[i]? = some (some r)) (h : Replaces strict w w' r (some n)) :
    Suits strict w w' x ((w.store.below x).set i (some n)) := by
  have hholds : w.store.Holds x r := List.mem_of_getElem? hi
  have hgrows := h.builds.grows
  have hkept := h.builds.kept
  have hbelow : ∀ e ∈ w.store.below x, w.store.KnownAt e := fun e he => hw.closed.knownAt he
  have hrknown := hbelow _ hholds
  -- with the child taken out and the new one counted instead, the rest of the census is the same
  have hcensus := w'.store.tallyAll_set w'.shares (fun r => ({r} : Multiset Ref)) hi (some n)
  have hcost := w'.store.tallyAll_set w'.shares w'.store.weight hi (some n)
  change w'.censusAll _ + w'.census (some r) = w'.censusAll _ + w'.census (some n) at hcensus
  change w'.costAll _ + w'.cost (some r) = w'.costAll _ + w'.cost (some n) at hcost
  rw [hgrows.census hw.toCoherent hkept.toCoherent hrknown,
    hgrows.censusAll hw.toCoherent hkept.toCoherent hbelow] at hcensus
  rw [hgrows.cost hw.toCoherent hkept.toCoherent hrknown,
    hgrows.costAll hw.toCoherent hkept.toCoherent hbelow] at hcost
  refine ⟨hgrows, hkept, ?_, ?_, ?_, ?_, ?_⟩
  · intro e he
    rcases List.mem_or_eq_of_mem_set he with he | rfl
    · exact hgrows.store.knownAt (hbelow e he)
    · exact h.builds.known
  · refine le_of_add_le_add_right (a := w.census (some r)) ?_
    rw [hcensus, add_assoc, add_comm (w.store.since w'.store)]
    exact add_le_add_right (by simpa using h.builds.census) _
  · have hweight : (w'.store.refill x ((w.store.below x).set i (some n))).weight x =
        w.store.weight x := by
      have hcell : ∃ m, x = .cell m ∧ m < w'.store.cells.size :=
        hholds.cell.imp fun m hm => ⟨hm.1, Nat.lt_of_lt_of_le hm.2 hgrows.store.size⟩
      rw [weight_refill hcell, hgrows.store.get x hholds.known, Store.weight, Store.below]
      cases w.store.get x <;> simp [Cell.below]
    have hcheaper := h.cheaper
    omega
  · intro label old hx
    have hold : w.store.below x = old := by rw [Store.below, hx]; rfl
    rw [hold] at hi ⊢
    exact NodeTyped.replace hw hx hi h
  · intro items category hx hall e he
    have hold : w.store.below x = items := by rw [Store.below, hx]; rfl
    rw [hold] at he hbelow hi
    rcases List.mem_or_eq_of_mem_set he with he | rfl
    · rw [hgrows.store.isIn (hbelow e he)]
      exact hall e he
    · rcases h.category category (hall _ (List.mem_of_getElem? hi)) with ⟨hnone, _⟩ | hin
      · simp at hnone
      · exact hin

/-- Rewriting the items of a list. -/
theorem Sequences.ListStep.suits (hw : w.Kept strict) {x : Ref} {items items' : List (Option Ref)}
    (hx : w.store.get x = .list items) (h : ListStep w items items' w') :
    Suits strict w w' x items' := by
  have hbelow : w.store.below x = items := by rw [Store.below, hx]; rfl
  have hitems : ∀ e ∈ items, w.store.KnownAt e := fun e he =>
    hw.closed.knownAt (r := x) (hbelow.symm ▸ he)
  obtain ⟨htrims, hlength⟩ := h.effect hw hitems
  have hknown : w.store.Known x := by
    by_contra hunknown
    cases hx.symm.trans (Store.get_unknown hunknown)
  have hweight : (w'.store.refill x items').weight x = items'.length := by
    have hx' : w'.store.get x = .list items := (htrims.grows.store.get x hknown).trans hx
    rw [Store.weight, Edit.get_refill_list hx']
  refine ⟨htrims.grows, htrims.kept, htrims.known, by rw [hbelow]; exact htrims.census, ?_, ?_, ?_⟩
  · have hcost := htrims.cost
    have hweight' : w.store.weight x = items.length := by rw [Store.weight, hx]
    rw [hweight, hbelow, hweight']
    omega
  · intro label old hnode
    cases hx.symm.trans hnode
  · intro items₀ category hx₀ hall
    obtain rfl := Cell.list.inj (hx.symm.trans hx₀)
    exact htrims.category category hall

/-- What an edit gives an element suits it. -/
theorem Alters.suits (hw : w.Kept strict) {x : Ref} {kids : List (Option Ref)}
    (h : Alters w w' x kids) : Suits strict w w' x kids := by
  cases h with
  | node hstep hi => exact (hstep.effect hw).suits hw hi
  | list hx hstep => exact hstep.suits hw hx

/-! ## Proposals -/

namespace Store

theorem HoldsAt.extends {s t : Store} (h : s.Extends t) {r c : Ref} {key : Key}
    (hr : s.Known r) (hholds : s.HoldsAt r key c) : t.HoldsAt r key c := by
  rw [HoldsAt, places, keys, below, h.get r hr]
  exact hholds

end Store

theorem Cursor.Live.extends {s t : Store} (h : s.Extends t) (hs : s.Closed)
    (hroot : s.Known root) {c : Cursor} (hc : c.Live s root) : c.Live t root := by
  induction c with
  | root e => exact hc
  | step parent key e ih =>
    obtain ⟨hparent, r, x, hr, rfl, hholds⟩ := hc
    have hknown : s.Known r := by
      have hreach := hparent.reaches hr
      clear ih hparent hholds
      induction hreach with
      | refl => exact hroot
      | tail _ hstep _ => exact hs _ _ hstep
    exact ⟨ih hparent, r, x, hr, rfl, hholds.extends h hknown⟩

/-- An edit that was proposed at a place gives an element there or directly above new children. -/
structure Changes (root : Ref) (w : Workspace) (place : Cursor) (edit : Edit) (w' : Workspace)
    (holder : Cursor) (x : Ref) (kids : List (Option Ref)) : Prop where
  live : holder.Live w.store root
  element : holder.element = some x
  own : w.shares x = false
  alters : Alters w w' x kids
  invalidated : ∀ d ∈ edit.invalidated,
    d = holder ∨ ∃ key n, d = .step holder key n ∧ d.Proper root
  mem_invalidated : holder ∈ edit.invalidated
  place : (place = holder ∧ w.store.isList x = true) ∨ ∃ key e, place = .step holder key e

/-- What happens when an edit is applied that was proposed at a live place: it is refused, or one
element of the tree gets new children. -/
inductive EditOutcome (strict : Strictness) (root : Ref) (w : Workspace) (place : Cursor)
    (edit : Edit) (w' : Workspace) : Prop
  | empty {shown : Text} : strict.complete = false → edit = .put place none →
      w'.cost none < w.cost place.element →
      edit.apply (some w'.pool) w'.store = (w'.store, some (.refused (.nothing shown))) →
      EditOutcome strict root w place edit w'
  | noParent {shown : Text} {kind : Kind} {n : Option Ref} : place = .root (some root) →
      w.store.kind? root = some kind → kind.isReplaceable = true → edit = .put place n →
      w'.cost n < w.cost place.element →
      edit.apply (some w'.pool) w'.store = (w'.store, some (.refused (.noParent shown))) →
      EditOutcome strict root w place edit w'
  | changed {holder : Cursor} {x : Ref} {kids : List (Option Ref)} :
      Changes root w place edit w' holder x kids →
      edit.apply (some w'.pool) w'.store = (w'.store.refill x kids, none) →
      EditOutcome strict root w place edit w'

theorem element_withElement (n : Option Ref) (c : Cursor) : (c.withElement n).element = n := by
  cases c <;> rfl

/-- Everything directly below a live place of an element that is not shared may be edited. -/
theorem editable_of_live (hw : w.Intact strict root) (h : w.Grows w') (hw' : w'.Kept strict)
    {holder : Cursor} (hlive : holder.Live w.store root) {x : Ref} (hx : holder.element = some x)
    (hown : w.shares x = false) : Edit.Editable w'.pool w'.store holder x := by
  have hlive' := hlive.extends h.store hw.closed hw.root_known
  have hknown := hw.known_of_reaches hw.root_known (hlive.reaches hx)
  have hfree : w'.pool.isConstant (some x) = false := by
    rw [h.isConstant hknown]
    exact (Bool.or_eq_false_iff.mp hown).2
  exact fun key e => Edit.editableParent_ok hw'.typed (hw.grow h hw').root_node
    (fun _ _ hp hpc => hw'.constant_holds hp hpc) hlive' hx hfree key e

theorem apply_put_none (pool : Pool) (s : Store) (place : Cursor) :
    (Edit.put place none).apply (some pool) s =
      (s, some (.refused (.nothing ((place.withElement none).shown s)))) := by
  simp [Edit.put, Edit.apply, Edit.applyReplace, Cursor.node?, element_withElement, throw,
    throwThe, MonadExceptOf.throw, bind, Except.bind]

theorem apply_put_root (pool : Pool) {s : Store} {m : Ref} (hm : s.isList m = false)
    (e : Option Ref) :
    (Edit.put (.root e) (some m)).apply (some pool) s =
      (s, some (.refused (.noParent ((Cursor.root (some m)).shown s)))) := by
  simp [Edit.put, Cursor.withElement, Edit.apply, Edit.applyReplace, Cursor.node?,
    Cursor.element, hm, Edit.editableParent, Cursor.parent?, Except.mapError, bind, Except.bind]

/-- A replacement by a node that was found at a live place below the root: the element above gets
the node in place of the old one. -/
theorem NodeStep.changes (hw : w.Intact strict root) {parent : Cursor} {key : Key} {r m : Ref}
    (hplace : (Cursor.step parent key (some r)).Live w.store root)
    (h : NodeStep w r (some m) w') :
    ∃ x i, (w.store.below x)[i]? = some (some r) ∧
      Changes root w (.step parent key (some r)) (.put (.step parent key (some r)) (some m)) w'
        parent x ((w.store.below x).set i (some m)) ∧
      (Edit.put (.step parent key (some r)) (some m)).apply (some w'.pool) w'.store =
        (w'.store.refill x ((w.store.below x).set i (some m)), none) := by
  have heffect := h.effect hw.toKept
  have hgrows := heffect.builds.grows
  have hkept := heffect.builds.kept
  obtain ⟨hrnode, hmnode⟩ := heffect.isNode
  have hproper := hplace.proper
  obtain ⟨hparent, x, r', hx, hr', hholds⟩ := hplace
  obtain rfl := Option.some.inj hr'
  -- nothing shared is altered: the parent of an element of its own is one as well
  have hown : w.shares x = false :=
    Cursor.Live.parent_own (fun _ _ hp hpc => hw.shares_holds hp hpc) heffect.own hholds.holds
  have hknown := hholds.holds.known
  have hrknown : w.store.KnownAt (some r) := hw.closed.knownAt hholds.holds
  have hrnode' : w'.store.isList r = false := by
    rw [Store.isList, hgrows.store.get r (Store.knownAt_some.mp hrknown)]
    exact hrnode
  obtain ⟨i, hi, happly⟩ := Edit.apply_put hkept.typed
    (editable_of_live hw hgrows hkept hparent hx hown key (some m))
    (hholds.extends hgrows.store hknown) hrnode' hmnode (by
      intro category hin
      rw [hgrows.store.isIn hrknown] at hin
      rcases heffect.category category hin with ⟨hnone, _⟩ | hin'
      · simp at hnone
      · exact hin')
  rw [hgrows.store.below hknown] at hi happly
  refine ⟨x, i, hi, ⟨hparent, hx, hown, .node h hi, ?_, ?_, .inr ⟨key, some r, rfl⟩⟩, happly⟩
  · intro d hd
    rcases (by simpa [Edit.put, Cursor.withElement, Edit.invalidated, Cursor.parent?] using hd :
      d = .step parent key (some m) ∨ d = parent) with rfl | rfl
    · exact .inr ⟨key, some m, rfl, hproper⟩
    · exact .inl rfl
  · simp [Edit.put, Cursor.withElement, Edit.invalidated, Cursor.parent?]

/-- A replacement that was found at a live place. -/
theorem NodeStep.outcome (hw : w.Intact strict root) {place : Cursor}
    (hplace : place.Live w.store root) {r : Ref} (hr : place.element = some r) {n : Option Ref}
    (h : NodeStep w r n w') : EditOutcome strict root w place (.put place n) w' := by
  have heffect := h.effect hw.toKept
  cases n with
  | none =>
    obtain ⟨kind, hkind, hreplaceable⟩ := heffect.kind
    obtain ⟨category, haccepts⟩ := Kind.exists_category hreplaceable
    have hin : w.store.isIn category (some r) = true := by simp [Store.isIn, hkind, haccepts]
    rcases heffect.category category hin with ⟨_, hstrict⟩ | hnone
    · exact .empty hstrict rfl (hr ▸ heffect.cheaper) (apply_put_none _ _ _)
    · simp [Store.isIn] at hnone
  | some m =>
    cases place with
    | root e =>
      obtain rfl : e = some root := hplace
      obtain rfl : root = r := Option.some.inj hr
      obtain ⟨kind, hkind, hreplaceable⟩ := heffect.kind
      exact .noParent rfl hkind hreplaceable rfl heffect.cheaper
        (apply_put_root _ heffect.isNode.2 _)
    | step parent key e =>
      obtain rfl : e = some r := hr
      obtain ⟨x, i, _, hchanges, happly⟩ := h.changes hw hplace
      exact .changed hchanges happly

/-- Rewriting that was found at a live place: the list there gets the new items. -/
theorem Sequences.Rewrites.changes (hw : w.Intact strict root) {place : Cursor}
    (hplace : place.Live w.store root) {edit : Edit} {l : Ref} {items items' : List (Option Ref)}
    (h : Rewrites w place edit w' l items items') :
    Changes root w place edit w' place l items' ∧
      edit.apply (some w'.pool) w'.store = (w'.store.refill l items', none) := by
  have hsuits := h.step.suits hw.toKept h.list
  have hown := hw.own_of_list h.list
  have hknown := hw.known_of_reaches hw.root_known (hplace.reaches h.element)
  refine ⟨⟨hplace, h.element, hown, .list h.list h.step, ?_, h.invalidated_place,
    .inl ⟨rfl, by simp [Store.isList, h.list]⟩⟩, ?_⟩
  · intro d hd
    rcases h.invalidated d hd with rfl | ⟨i, n, rfl⟩
    · exact .inl rfl
    · refine .inr ⟨.index i, some n, rfl, hplace.proper, ?_⟩
      rintro j hj
      obtain rfl := Key.index.inj hj
      omega
  · refine h.apply w'.store (editable_of_live hw hsuits.grows hsuits.kept hplace h.element hown) ?_
      fun _ => rfl
    rw [hsuits.grows.store.get l hknown, h.list]

/-- The catalog proposes steps at nodes and of lists, and nothing else. -/
theorem Simplification.propose_cases (ht : w.store.Typed strict) {place : Cursor}
    {simplification : Simplification} {edit : Edit}
    (h : simplification.propose place w = some (edit, w')) :
    (∃ r n, place.element = some r ∧ NodeStep w r n w' ∧ edit = .put place n) ∨
      ∃ l items items', Rewrites w place edit w' l items items' := by
  cases simplification with
  | deblock => exact .inl (flattenBlock_step ht h)
  | dropDead =>
    obtain ⟨l, before, jump, after, _, _, hrewrites⟩ := dropUnreachable_step h
    exact .inr ⟨l, _, _, hrewrites⟩
  | sequenceFusion =>
    obtain ⟨l, items, items', _, _, _, hrewrites⟩ := fuseRuns_step h
    exact .inr ⟨l, items, items', hrewrites⟩
  | completionFusion =>
    obtain ⟨l, before, statement, next, after, _, _, _, _, _, _, hrewrites⟩ :=
      fuseCompletion_step h
    exact .inr ⟨l, _, _, hrewrites⟩
  | ifToConditional => exact .inl (lowerIf_step h)
  | foldConstant => exact .inl (foldOperation_step h)
  | foldConditional => exact .inl (foldConditional_step h)

/-- The catalog proposes something only for elements that are not shared, and what it adds to the
workspace leaves the rest as it is. -/
theorem Simplification.grows (hw : w.Kept strict) {place : Cursor}
    {simplification : Simplification} {edit : Edit}
    (h : simplification.propose place w = some (edit, w')) :
    (∃ r, place.element = some r ∧ w.shares r = false) ∧ w.Grows w' ∧ w'.Kept strict := by
  rcases simplification.propose_cases hw.typed h with
    ⟨r, n, hr, hstep, _⟩ | ⟨l, items, items', hrewrites⟩
  · have heffect := hstep.effect hw
    exact ⟨⟨r, hr, heffect.own⟩, heffect.builds.grows, heffect.builds.kept⟩
  · have hsuits := hrewrites.step.suits hw hrewrites.list
    exact ⟨⟨l, hrewrites.element, hw.own_of_list hrewrites.list⟩, hsuits.grows, hsuits.kept⟩

/-- When an edit of the catalog is applied at a live place, it changes one element or is refused. -/
theorem Simplification.outcome (hw : w.Intact strict root) {place : Cursor}
    (hplace : place.Live w.store root) {simplification : Simplification} {edit : Edit}
    (h : simplification.propose place w = some (edit, w')) :
    EditOutcome strict root w place edit w' := by
  rcases simplification.propose_cases hw.typed h with
    ⟨r, n, hr, hstep, rfl⟩ | ⟨l, items, items', hrewrites⟩
  · exact hstep.outcome hw hplace hr
  · obtain ⟨hchanges, happly⟩ := hrewrites.changes hw hplace
    exact .changed hchanges happly

/-- An edit that was applied changed one element. -/
theorem EditOutcome.changes {place : Cursor} {edit : Edit} {store : Store}
    (h : EditOutcome strict root w place edit w')
    (happly : edit.apply (some w'.pool) w'.store = (store, none)) :
    ∃ holder x kids, Changes root w place edit w' holder x kids ∧
      store = w'.store.refill x kids := by
  cases h with
  | empty _ _ _ hrefused => simp [hrefused] at happly
  | noParent _ _ _ _ _ hrefused => simp [hrefused] at happly
  | changed hchanges happlied =>
    rw [happlied] at happly
    exact ⟨_, _, _, hchanges, (Prod.mk.inj happly).1.symm⟩

section Changes

variable {place holder : Cursor} {edit : Edit} {x : Ref} {kids : List (Option Ref)}

theorem Changes.mem_census (h : Changes root w place edit w' holder x kids)
    (hw : w.Intact strict root) : x ∈ w.census (some root) :=
  h.live.mem_census hw.acyclic (fun _ _ hp hpc => hw.shares_holds hp hpc) h.element h.own

theorem Changes.intact (h : Changes root w place edit w' holder x kids)
    (hw : w.Intact strict root) : (w'.refill x kids).Intact strict root :=
  hw.refill (h.mem_census hw) (h.alters.suits hw.toKept)

theorem Changes.cost_lt (h : Changes root w place edit w' holder x kids)
    (hw : w.Intact strict root) : (w'.refill x kids).cost (some root) < w.cost (some root) :=
  (h.alters.suits hw.toKept).cost_refill hw (h.mem_census hw)

theorem Changes.proper (h : Changes root w place edit w' holder x kids) :
    ∀ d ∈ edit.invalidated, d.Proper root := by
  intro d hd
  rcases h.invalidated d hd with rfl | ⟨_, _, _, hproper⟩
  · exact h.live.proper
  · exact hproper

end Changes

/-! ## Histories -/

/-- How the workspace of a tree develops: something is added to it, or one element of the tree gets
new children. -/
inductive Evolves (strict : Strictness) (root : Ref) (w : Workspace) : Workspace → Prop
  | grown {w' : Workspace} : w.Grows w' → w'.Kept strict → Evolves strict root w w'
  | changed {w' : Workspace} {place holder : Cursor} {edit : Edit} {x : Ref}
      {kids : List (Option Ref)} : Changes root w place edit w' holder x kids →
      Evolves strict root w (w'.refill x kids)

theorem Evolves.intact (h : Evolves strict root w w') (hw : w.Intact strict root) :
    w'.Intact strict root := by
  cases h with
  | grown hgrows hkept => exact hw.grow hgrows hkept
  | changed hchanges => exact hchanges.intact hw

/-- The root stays a node of its kind. -/
theorem Evolves.kind (h : Evolves strict root w w') (hw : w.Intact strict root) :
    w'.store.kind? root = w.store.kind? root := by
  cases h with
  | grown hgrows _ => exact hgrows.store.kind? hw.root_known
  | changed hchanges =>
    have hgrows := (hchanges.alters.suits hw.toKept).grows
    rw [Workspace.refill, Store.kind?, Store.label?_refill, ← Store.kind?,
      hgrows.store.kind? hw.root_known]

/-- Many developments in a row. -/
def History (strict : Strictness) (root : Ref) : Workspace → Workspace → Prop :=
  Relation.ReflTransGen (Evolves strict root)

theorem History.intact (h : History strict root w w') (hw : w.Intact strict root) :
    w'.Intact strict root := by
  induction h with
  | refl => exact hw
  | tail _ hlast ih => exact hlast.intact ih

/-- What every development keeps is kept by histories. -/
theorem History.keeps {P : Workspace → Prop}
    (hstep : ∀ {w w'}, w.Intact strict root → Evolves strict root w w' → P w → P w')
    (h : History strict root w w') (hw : w.Intact strict root) (hP : P w) : P w' := by
  induction h with
  | refl => exact hP
  | tail hbefore hlast ih => exact hstep (History.intact hbefore hw) hlast ih

theorem History.kind (h : History strict root w w') (hw : w.Intact strict root) :
    w'.store.kind? root = w.store.kind? root :=
  h.keeps (P := fun u => u.store.kind? root = w.store.kind? root)
    (fun hu hstep heq => (hstep.kind hu).trans heq) hw rfl

end ScriptSimplifier
