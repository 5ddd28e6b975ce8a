import ScriptSimplifier.Proofs.Pass.NodeWalks
import ScriptSimplifier.Proofs.Store.Paths

/-!
# Refreshed places

A place remembers the elements that were passed on the way to it.  Whatever is done to the tree in
the meantime, refreshing the place says whether each of them still holds the next one
(`Cursor.Held`), and if so it gives the same way with list positions as they are now
(`Cursor.Refreshed`), every step of which is true of the tree (`Cursor.Attached`).  A run refreshes
a place before it offers it to the rules, so what they are offered is true of the tree too
(`refresh_exact`).
-/

namespace ScriptSimplifier

/-- Lists hold nodes only. -/
def Store.FlatLists (s : Store) : Prop :=
  ∀ l x, s.isList l = true → s.Holds l x → s.isList x = false

/-- One element still holds another that it had under a key: a child in its field, an item anywhere
in the list. -/
def Store.StillHolds (t : Store) (r x : Ref) : Key → Prop
  | .field name => t.child r name = some x
  | .index _ => some x ∈ t.itemsOf (some r)

instance (t : Store) (r x : Ref) : (key : Key) → Decidable (t.StillHolds r x key)
  | .field name => inferInstanceAs (Decidable (t.child r name = some x))
  | .index _ => inferInstanceAs (Decidable (some x ∈ t.itemsOf (some r)))

/-- An item stands at a position from zero up. -/
theorem Store.itemAt?_nonneg {s : Store} {l : Ref} {i : Int} {e : Option Ref}
    (h : s.itemAt? l i = some e) : 0 ≤ i := by
  rw [Store.itemAt?] at h
  split at h
  · assumption
  · cases h

namespace Cursor

variable {s t : Store} {c c' : Cursor}

/-! ## Ways -/

/-- A root that is a node, or a place one step down from another one, in a state of the tree. -/
inductive Built (s : Store) : Cursor → Prop
  | root {r : Ref} : s.Known r → s.isList r = false → Built s (.root (some r))
  | child {c : Cursor} (key : Key) : Built s c → Built s (c.child s key)

/-- The element at the start of the way. -/
def top : Cursor → Option Ref
  | .root e => e
  | .step parent _ _ => parent.top

/-- The keys on the way, from the root down. -/
def steps : Cursor → List Key
  | .root _ => []
  | .step parent key _ => parent.steps ++ [key]

/-- Every element on the way is still held by the one above it. -/
def Held (t : Store) : Cursor → Prop
  | .root _ => True
  | .step parent key e =>
    parent.Held t ∧ ∃ r x, parent.element = some r ∧ e = some x ∧ t.StillHolds r x key

/-- Every key on the way leads from the element above to the one below. -/
def Attached (t : Store) : Cursor → Prop
  | .root _ => True
  | .step parent key e => parent.Attached t ∧ elementBelow t parent.element key = e

/-- The same way past the same elements, where an item that is not at its position any more stands
at the first one that has it. -/
inductive Refreshed (t : Store) : Cursor → Cursor → Prop
  | root {e : Option Ref} : Refreshed t (.root e) (.root e)
  | field {parent parent' : Cursor} {name : String} {e : Option Ref} : Refreshed t parent parent' →
      Refreshed t (.step parent (.field name) e) (.step parent' (.field name) e)
  | kept {parent parent' : Cursor} {r x : Ref} {i : Int} : Refreshed t parent parent' →
      parent.element = some r → t.itemAt? r i = some (some x) →
      Refreshed t (.step parent (.index i) (some x)) (.step parent' (.index i) (some x))
  | found {parent parent' : Cursor} {r x : Ref} {i j : Int} : Refreshed t parent parent' →
      parent.element = some r → t.itemAt? r i ≠ some (some x) → t.itemAt? r j = some (some x) →
      (∀ k < j, t.itemAt? r k ≠ some (some x)) →
      Refreshed t (.step parent (.index i) (some x)) (.step parent' (.index j) (some x))

theorem Refreshed.element (h : Refreshed t c c') : c'.element = c.element := by
  cases h <;> rfl

theorem Attached.follow (h : c.Attached t) : t.follow c.top c.steps = c.element := by
  induction c with
  | root e => rfl
  | step parent key e ih =>
    rw [top, steps, Store.follow_append, ih h.1, Store.follow_cons, Store.follow_nil]
    exact h.2

/-- A way on which something is found is true of a tree with more elements, too. -/
theorem Attached.extend (h : c.Attached s) (hc : c.element.isSome = true) (hst : s.Extends t) :
    c.Attached t := by
  induction c with
  | root e => trivial
  | step parent key e ih =>
    obtain ⟨hparent, hbelow⟩ := h
    obtain ⟨x, rfl⟩ := Option.isSome_iff_exists.mp hc
    cases hr : parent.element with
    | none => rw [hr] at hbelow; cases key <;> cases hbelow
    | some r =>
      rw [hr] at hbelow
      have hget := hst.get r (holds_elementBelow hbelow).known
      refine ⟨ih hparent (by rw [hr]; rfl), ?_⟩
      rw [hr, ← hbelow]
      cases key with
      | field name => exact Store.child_congr hget name
      | index i => simp only [elementBelow, Store.itemAt?, Store.itemsOf, Store.items?,
          Option.bind_some, hget]

/-! ## Steps that fit -/

/-- Every step on the way fits the element above it: fields are those of nodes, and positions are
those of nodes in lists. -/
def Fits (t : Store) : Cursor → Prop
  | .root _ => True
  | .step parent key e => parent.Fits t ∧ ∃ r x, parent.element = some r ∧ e = some x ∧
      match key with
      | .field _ => t.isList r = false
      | .index i => t.isList r = true ∧ t.isList x = false ∧ 0 ≤ i

/-- The element at a place that was built was given out, and so were those above it. -/
theorem Built.issued (h : c.Built s) (hs : s.Closed) : c.Issued s := by
  induction h with
  | root hknown hnode => exact ⟨Store.knownAt_some.mpr hknown, hnode⟩
  | child key _ ih => exact ih.child hs key

/-- The steps by which a place was built fit for as long as what is a list remains one. -/
theorem Built.fits (h : c.Built s) (hs : s.Closed) (hflat : s.FlatLists) (hst : s.Retains t)
    (hc : c.element.isSome = true) : c.Fits t := by
  induction h with
  | root => trivial
  | @child c key hbuilt ih =>
    obtain ⟨x, hx⟩ := Option.isSome_iff_exists.mp hc
    have hbelow : elementBelow s c.element key = some x := hx
    cases hr : c.element with
    | none => rw [hr] at hbelow; cases key <;> cases hbelow
    | some r =>
      rw [hr] at hbelow
      -- a list remains one, so it is enough to look at the state in which the place was built
      have hholds := holds_elementBelow hbelow
      have hrlist := hst.isList r hholds.known
      have hxlist := hst.isList x (hs r x hholds)
      refine ⟨ih (by rw [hr]; rfl), r, x, hr, hx, ?_⟩
      cases key with
      | field name =>
        rw [hrlist]
        cases hget : s.get r with
        | node label kids => simp [Store.isList, hget]
        | list items => simp [elementBelow, Store.child_list hget] at hbelow
      | index i =>
        have hitem := Option.join_eq_some_iff.mp hbelow
        have hlist : s.isList r = true := by
          cases hget : s.get r with
          | node label kids => simp [Store.itemAt?, Store.itemsOf, Store.items?, hget] at hitem
          | list items => simp [Store.isList, hget]
        exact ⟨hrlist.trans hlist, hxlist.trans (hflat r x hlist hholds),
          Store.itemAt?_nonneg hitem⟩

/-! ## Finding an item again -/

/-- An item that its list still has is found at its position, or else at the first one that has
it. -/
theorem refreshItem_held {l x : Ref} {i : Int} (hi : 0 ≤ i) (h : some x ∈ t.itemsOf (some l)) :
    (t.itemAt? l i = some (some x) ∧ refreshItem t l x i = .ok i) ∨
      (t.itemAt? l i ≠ some (some x) ∧ ∃ j : Int, refreshItem t l x i = .ok j ∧
        t.itemAt? l j = some (some x) ∧ ∀ k < j, t.itemAt? l k ≠ some (some x)) := by
  rw [refreshItem, if_neg (by omega)]
  by_cases hat : t.itemAt? l i = some (some x)
  · exact .inl ⟨hat, by rw [if_pos hat]⟩
  · obtain ⟨j, hj⟩ := Option.isSome_iff_exists.mp (List.isSome_idxOf?.mpr h)
    have hindex : t.indexOf? l (some x) = some j := hj
    refine .inr ⟨hat, j, by rw [if_neg hat, hindex], itemAt?_of_indexOf? hindex, ?_⟩
    intro k hk hkx
    obtain ⟨hlt, -, hfirst⟩ := List.idxOf?_eq_some_iff.mp hj
    rw [Store.itemAt?] at hkx
    split at hkx
    · exact hfirst k.toNat (by omega) (List.getElem?_eq_some_iff.mp hkx).2
    · cases hkx

/-- An item that its list does not have any more is not found. -/
theorem refreshItem_lost {l x : Ref} {i : Int} (hi : 0 ≤ i) (h : some x ∉ t.itemsOf (some l)) :
    refreshItem t l x i = .error .detached := by
  have hat : t.itemAt? l i ≠ some (some x) := by
    intro hat
    rw [Store.itemAt?, if_pos hi] at hat
    exact h (List.mem_of_getElem? hat)
  have hindex : t.indexOf? l (some x) = none := List.idxOf?_eq_none_iff.mpr h
  rw [refreshItem, if_neg (by omega), if_neg hat, hindex]

/-! ## Refreshing -/

/-- A place whose steps fit is refreshed exactly if every element on the way is still held, and is
said to be detached otherwise. -/
theorem Fits.refresh (h : c.Fits t) :
    (c.Held t ∧ ∃ c', c.refresh t = .ok c' ∧ Refreshed t c c') ∨
      (¬ c.Held t ∧ c.refresh t = .error .detached) := by
  -- the first element on the way that is no longer held decides
  induction c with
  | root e => exact .inl ⟨trivial, .root e, rfl, .root⟩
  | step parent key e ih =>
    obtain ⟨hparent, r, x, hr, rfl, hkey⟩ := h
    have hdown : (Cursor.step parent key (some x)).Held t ↔
        parent.Held t ∧ t.StillHolds r x key := by
      refine and_congr_right fun _ => ⟨?_, fun hheld => ⟨r, x, hr, rfl, hheld⟩⟩
      rintro ⟨r', x', hr', hx', hheld⟩
      obtain rfl := Option.some.inj (hr.symm.trans hr')
      obtain rfl := Option.some.inj hx'
      exact hheld
    rcases ih hparent with ⟨hheld, p, hp, hrefreshed⟩ | ⟨hlost, hp⟩
    · have hpr : p.element = some r := hrefreshed.element.trans hr
      simp only [hdown, hheld, true_and, Cursor.refresh, hp, bind, Except.bind, hpr]
      cases key with
      | field name =>
        by_cases hchild : t.child r name = some x
        · exact .inl ⟨hchild, _, by simp [hkey, hchild, pure, Except.pure], .field hrefreshed⟩
        · exact .inr ⟨hchild, by simp [hchild]⟩
      | index i =>
        obtain ⟨hlist, hnode, hi⟩ := hkey
        -- an item that has moved is still found, at the first position that holds it
        by_cases hmem : some x ∈ t.itemsOf (some r)
        · refine .inl ⟨hmem, ?_⟩
          rcases refreshItem_held hi hmem with ⟨hat, hitem⟩ | ⟨hnot, j, hitem, hat, hfirst⟩
          · exact ⟨_, by simp [hlist, hnode, hitem, pure, Except.pure], .kept hrefreshed hr hat⟩
          · exact ⟨_, by simp [hlist, hnode, hitem, pure, Except.pure],
              .found hrefreshed hr hnot hat hfirst⟩
        · exact .inr ⟨hmem, by simp [hlist, hnode, refreshItem_lost hi hmem]⟩
    · refine .inr ⟨fun hheld => hlost (hdown.mp hheld).1, ?_⟩
      simp only [Cursor.refresh, hp, bind, Except.bind]

/-- What refreshing gives starts where the place did, is true of the tree, and is not changed by
refreshing it again. -/
theorem refresh_attached (h : c.refresh t = .ok c') :
    c'.top = c.top ∧ c'.Attached t ∧ c'.refresh t = .ok c' := by
  induction refreshes_of_refresh h with
  | root e => exact ⟨rfl, trivial, rfl⟩
  | field hparent hr hnode hchild ih =>
    obtain ⟨htop, hattached, hagain⟩ := ih hparent.refresh
    refine ⟨htop, ⟨hattached, by rw [hr]; exact hchild⟩, ?_⟩
    exact (Refreshes.field (refreshes_of_refresh hagain) hr hnode hchild).refresh
  | @index parent p r x i j hparent hr hlist hnode hitem ih =>
    obtain ⟨htop, hattached, hagain⟩ := ih hparent.refresh
    have hat : t.itemAt? r j = some (some x) := refreshItem_ok hitem
    -- the element is found where it was found before, and is not looked for anywhere else
    have hj : refreshItem t r x j = .ok j := by
      have hnonneg : ¬ j < 0 := not_lt.mpr (Store.itemAt?_nonneg hat)
      rw [refreshItem, if_neg hnonneg, if_pos hat]
    refine ⟨htop, ⟨hattached, by rw [hr, elementBelow, hat]; rfl⟩, ?_⟩
    exact (Refreshes.index (refreshes_of_refresh hagain) hr hlist hnode hj).refresh

theorem refresh?_attached (h : c.refresh? t = some c') :
    c'.top = c.top ∧ c'.element = c.element ∧ c'.Attached t := by
  obtain ⟨htop, hattached, -⟩ := refresh_attached (refresh_of_refresh? h)
  exact ⟨htop, (refresh?_issued h).1, hattached⟩

theorem retraced_top (s : Store) (c : Cursor) : (Run.retraced s c).top = c.top := by
  induction c with
  | root e => rfl
  | step parent key e ih =>
    rw [Run.retraced]
    split
    · exact ih
    · rfl

/-- What is true of a place is true of the places one step down, too. -/
def Inherited (good : Cursor → Prop) : Prop := ∀ s c, good c → ∀ d ∈ c.children s, good d

theorem inherited_top (good : Option Ref → Prop) : Inherited fun c => good c.top := by
  intro s c hc d hd
  obtain ⟨key, rfl⟩ := mem_children hd
  exact hc

end Cursor

/-! ## What rules are offered -/

/-- A rule that touches only places of the tree in which it is offered one. -/
def Rule.KeepsTop {σ : Type} (rule : Rule σ) : Prop :=
  ∀ place w memory proposal edit, rule.propose place w memory = .ok proposal →
    proposal.edit = some edit → ∀ d ∈ edit.invalidated, d.top = place.top

namespace Run

variable {σ : Type} {pass : Pass σ} {root : Ref} {run : Run σ} {rules : List (Rule σ)}

/-- A rule is offered a place: the first pending walk has visited it, it could be refreshed, and the
rules before this one proposed nothing there. -/
structure Offers (run : Run σ) (rules : List (Rule σ)) (rule : Rule σ) (fresh : Cursor)
    (w : Workspace) (memory : σ) : Prop where
  pulled : ∃ place left, run.pull? = some (place, left) ∧
    place.refresh? run.workspace.store = some fresh
  declined : ∃ before after, rules = before ++ rule :: after ∧
    offer fresh run.workspace run.memory before = .nothing w memory

/-- Pending walks have entered only places that hold something, and something is true of all their
places. -/
def Noted (good : Cursor → Prop) (run : Run σ) : Prop :=
  ∀ task ∈ run.tasks, ∀ stop ∈ task.walk.stops,
    (stop.place.element.isSome = true ∧ good stop.place) ∧ ∀ d ∈ stop.ahead, good d

variable {good : Cursor → Prop}

theorem noted_enter (hgood : Cursor.Inherited good) {s : Store} {walk : Walk} {place : Cursor}
    (hwalk : ∀ stop ∈ walk.stops,
      (stop.place.element.isSome = true ∧ good stop.place) ∧ ∀ d ∈ stop.ahead, good d)
    (hplace : good place) :
    ∀ stop ∈ (Walk.enter s walk place).stops,
      (stop.place.element.isSome = true ∧ good stop.place) ∧ ∀ d ∈ stop.ahead, good d := by
  unfold Walk.enter
  split
  · exact hwalk
  · rename_i hsome
    intro stop hstop
    rcases List.mem_cons.mp hstop with rfl | hstop
    · exact ⟨⟨by simpa [Option.isSome_iff_ne_none] using hsome, hplace⟩, hgood s place hplace⟩
    · exact hwalk stop hstop

theorem noted_start (hgood : Cursor.Inherited good) (w : Workspace) (memory : σ) (before : Text)
    (h : good (.root (some root))) : (start w memory root before).Noted good := by
  intro task htask
  obtain rfl := List.mem_singleton.mp htask
  exact noted_enter hgood (fun _ hstop => nomatch hstop) h

theorem Noted.pulled (h : run.Noted good) {place : Cursor} {left : Run σ}
    (hpull : run.pull? = some (place, left)) :
    place.element.isSome = true ∧ good place ∧ left.Noted good := by
  obtain ⟨task, rest, outer, htasks, hstops, rfl⟩ := pull?_eq_some hpull
  have hfirst := h task (htasks ▸ List.mem_cons_self)
  rw [hstops] at hfirst
  obtain ⟨⟨hsome, hgood⟩, -⟩ := hfirst _ List.mem_cons_self
  refine ⟨hsome, hgood, ?_⟩
  intro task' htask'
  rcases List.mem_cons.mp htask' with rfl | htask'
  · exact fun stop hstop => hfirst stop (List.mem_cons_of_mem _ hstop)
  · exact h task' (htasks ▸ List.mem_cons_of_mem _ htask')

/-- What is proposed is proposed by one of the rules. -/
theorem offer_edit {place : Cursor} {w w' : Workspace} {memory memory' : σ} {name : Text}
    {edit : Edit} (h : offer place w memory rules = .edit name edit w' memory') :
    ∃ rule ∈ rules, ∃ w memory proposal, rule.propose place w memory = .ok proposal ∧
      proposal.edit = some edit := by
  induction rules generalizing w memory with
  | nil => cases h
  | cons rule rest ih =>
    unfold offer at h
    split at h
    · cases h
    · rename_i hpropose
      cases h
      exact ⟨rule, List.mem_cons_self, w, memory, _, hpropose, rfl⟩
    · obtain ⟨rule', hmem, hpropose⟩ := ih h
      exact ⟨rule', List.mem_cons_of_mem _ hmem, hpropose⟩

theorem Noted.perform (hgood : Cursor.Inherited good) (h : run.Noted good) {edit : Edit}
    (hedit : ∀ s, ∀ c ∈ tainted s edit, good c) (place : Cursor) (rule : Text) :
    (perform pass root run place rule edit).left.Noted good := by
  have hperforms := perform_performs pass root run place rule edit
  generalize (Run.perform pass root run place rule edit).left = last at hperforms
  cases hperforms with
  | limited => exact h
  | failed => exact h
  | invalid => exact h
  | @applied store =>
    rw [reschedule_touched]
    intro task htask
    rcases List.mem_append.mp htask with hfresh | hkept
    · obtain ⟨c, hc, rfl⟩ := List.mem_map.mp hfresh
      rw [List.mem_reverse, ← tainted_eq] at hc
      exact noted_enter hgood (fun _ hstop => nomatch hstop) (hedit _ c hc)
    · exact h task (List.mem_of_mem_filter hkept)

/-- A step leaves it so, if it is true of the places that are offered to the rules and visited again
after their edits. -/
theorem Noted.step (hgood : Cursor.Inherited good)
    (hfresh : ∀ s c d, good c → c.refresh? s = some d → good d)
    (hrules : ∀ rule ∈ pass.rules, ∀ place w memory proposal edit, good place →
      rule.propose place w memory = .ok proposal → proposal.edit = some edit →
      ∀ s, ∀ c ∈ tainted s edit, good c) (h : run.Noted good) :
    (step pass root run).left.Noted good := by
  have hcases := step_cases pass root run
  generalize Run.step pass root run = progress at hcases
  cases hcases with
  | coasted _ hcoasts =>
    cases hcoasts with
    | finished => exact h
    | closed htasks => exact fun task htask => h task (htasks ▸ List.mem_cons_of_mem _ htask)
    | @moved task rest place next ahead outer htasks hstops =>
      have hfirst := h task (htasks ▸ List.mem_cons_self)
      rw [hstops] at hfirst
      obtain ⟨hplace, hahead⟩ := hfirst _ List.mem_cons_self
      intro task' htask'
      rcases List.mem_cons.mp htask' with rfl | htask'
      · refine noted_enter hgood ?_ (hahead next List.mem_cons_self)
        intro stop hstop
        rcases List.mem_cons.mp hstop with rfl | hstop
        · exact ⟨hplace, fun d hd => hahead d (List.mem_cons_of_mem _ hd)⟩
        · exact hfirst stop (List.mem_cons_of_mem _ hstop)
      · exact h task' (htasks ▸ List.mem_cons_of_mem _ htask')
  -- in the other steps the pulled place is gone, and the walk goes on with the stops around it
  | skipped hpull => exact (h.pulled hpull).2.2
  | declined hpull => exact (h.pulled hpull).2.2
  | faulted hpull => exact (h.pulled hpull).2.2
  | @attempted attempt hattempt =>
    obtain ⟨place, left, w, memory, hpull, hrefresh, hoffer, hrun⟩ := attempt?_eq_some hattempt
    obtain ⟨-, hplace, hleft⟩ := h.pulled hpull
    obtain ⟨rule, hrule, w', memory', proposal, hpropose, hedit⟩ := offer_edit hoffer
    -- what is scheduled again is reached from the places that the edit touches
    have hattempted : attempt.run.Noted good := by
      rw [hrun]
      exact hleft
    exact hattempted.perform hgood (hrules rule hrule _ w' memory' proposal attempt.edit
      (hfresh _ _ _ hplace hrefresh) hpropose hedit) _ _

end Run

/-- Refreshing finds exactly the places that are still there.

Let a place be built from a root by steps down in some state of the tree, and let it hold something.
However the tree has changed since then, refreshing succeeds if every element on the way is still
held by the one above it, and otherwise says that the place is detached.  If it succeeds, the result
passes the same elements by the same fields, and its list positions hold their items: the positions
as they were, or else the first ones that do.  Then its keys lead from the root to its element, and
refreshing it again gives the same place.

So every place that a run offers to a rule, after the rules before it have declined it, holds
something, and every key on the way to it leads to the element that it names.  That is still so when
its turn comes, if the rules do not write to the tree.  If they touch only the tree that they are
offered places of, the way starts at the root of that tree. -/
theorem refresh_exact :
    (∀ (s t : Store) (c : Cursor), s.Closed → s.FlatLists → s.Retains t → c.Built s →
      c.element.isSome = true →
      (c.Held t → ∃ c', c.refresh t = .ok c' ∧ c.Refreshed t c' ∧
        t.follow c'.top c'.steps = c.element ∧ c'.refresh t = .ok c') ∧
      (¬ c.Held t → c.refresh t = .error .detached)) ∧
    ∀ (σ : Type) (pass : Pass σ) (root : Ref) (w : Workspace) (memory : σ) (before : Text)
      (fuel : Nat) (run : Run σ),
      ((Run.start w memory root before).steps pass root fuel) = (run, none) →
      ∀ rule fresh w' memory', run.Offers pass.rules rule fresh w' memory' →
        fresh.element.isSome = true ∧ fresh.Attached run.workspace.store ∧
        ((∀ rule ∈ pass.rules, rule.OnlyAdds) → fresh.Attached w'.store) ∧
        ((∀ rule ∈ pass.rules, rule.KeepsTop) → fresh.top = some root) := by
  constructor
  · intro s t c hs hflat hst hbuilt hc
    have hfits := hbuilt.fits hs hflat hst hc
    refine ⟨fun hheld => ?_, fun hlost => ?_⟩
    · rcases hfits.refresh with ⟨-, c', hrefresh, hrefreshed⟩ | ⟨hlost, -⟩
      · obtain ⟨-, hattached, hagain⟩ := Cursor.refresh_attached hrefresh
        exact ⟨c', hrefresh, hrefreshed, hattached.follow.trans hrefreshed.element, hagain⟩
      · exact absurd hheld hlost
    · rcases hfits.refresh with ⟨hheld, -⟩ | ⟨-, hrefresh⟩
      · exact absurd hheld hlost
      · exact hrefresh
  · intro σ pass root w memory before fuel run hrun rule fresh w' memory' hoffers
    let good : Option Ref → Prop := fun e =>
      (∀ rule ∈ pass.rules, rule.KeepsTop) → e = some root
    have hnoted : run.Noted fun c => good c.top := by
      have hsteps : ((Run.start w memory root before).steps pass root fuel).1.Noted
          fun c => good c.top := by
        refine Run.steps_keep (fun run => Run.Noted.step (Cursor.inherited_top good) ?_ ?_)
          (Run.noted_start (Cursor.inherited_top good) w memory before fun _ => rfl) fuel
        · intro s c d hc hd
          rw [(Cursor.refresh?_attached hd).1]
          exact hc
        · intro rule hrule place w memory proposal edit hplace hpropose hedit s c hc hkeeps
          -- a new walk starts at a place that the edit touched, or at the node around it
          obtain ⟨d, hd, hrefresh, -⟩ := Run.mem_tainted hc
          rw [(Cursor.refresh?_attached hrefresh).1, Cursor.retraced_top,
            hkeeps rule hrule place w memory proposal edit hpropose hedit d hd]
          exact hplace hkeeps
      rw [hrun] at hsteps
      exact hsteps
    obtain ⟨⟨place, left, hpull, hfresh⟩, front, back, hrules, hdeclined⟩ := hoffers
    obtain ⟨hsome, hgood, -⟩ := hnoted.pulled hpull
    obtain ⟨htop, helement, hattached⟩ := Cursor.refresh?_attached hfresh
    have hsome' : fresh.element.isSome = true := by rw [helement, hsome]
    refine ⟨hsome', hattached, fun hadds => ?_, by rw [htop]; exact hgood⟩
    -- the rules before this one have at most added elements since the place was refreshed
    have hfront : ∀ rule ∈ front, rule.OnlyAdds := by
      intro rule' hrule'
      exact hadds rule' (by rw [hrules]; exact List.mem_append_left _ hrule')
    have hsupplied := Run.supplied_offer hfront fresh run.workspace run.memory
    rw [hdeclined] at hsupplied
    exact hattached.extend hsome' hsupplied.accrues.store

theorem dropItems_proposes {place : Cursor} {w : Workspace} {memory : Unit}
    {proposal : Proposal Unit} (h : dropItems.propose place w memory = .ok proposal) :
    proposal.workspace = w ∧ ∀ edit, proposal.edit = some edit → edit = .remove place := by
  unfold dropItems Rule.plain at h
  dsimp only at h
  by_cases hitem : place.inList = true
  · rw [if_pos hitem] at h
    obtain rfl := Except.ok.inj h
    exact ⟨rfl, fun edit hedit => (Option.some.inj hedit).symm⟩
  · rw [if_neg hitem] at h
    obtain rfl := Except.ok.inj h
    exact ⟨rfl, fun _ hedit => nomatch hedit⟩

theorem dropPass_onlyAdds : ∀ rule ∈ dropPass.rules, rule.OnlyAdds := by
  intro rule hrule place w memory proposal hpropose
  obtain rfl := List.mem_singleton.mp hrule
  rw [(dropItems_proposes hpropose).1]
  exact .refl w

theorem dropPass_keepsTop : ∀ rule ∈ dropPass.rules, rule.KeepsTop := by
  intro rule hrule place w memory proposal edit hpropose hedit d hd
  obtain rfl := List.mem_singleton.mp hrule
  obtain rfl := (dropItems_proposes hpropose).2 edit hedit
  rw [Edit.invalidated] at hd
  cases place with
  | root e => cases hd
  | step parent key e =>
    obtain rfl := List.mem_singleton.mp hd
    rfl

/-- After the first of two equal items is removed, the place of the second is found where the first
was.  After another removal it is detached. -/
theorem refresh_exact_twoItems :
    ∃ place : Cursor, ∃ removal : Edit, ∃ t u : Store,
      place.key? = some (.index 1) ∧ place.element = some .emptyStatement ∧
      removal.apply (some .empty) twoItems.store = (t, none) ∧
      removal.apply (some .empty) t = (u, none) ∧
      (∃ c', place.refresh t = .ok c' ∧ place.Refreshed t c' ∧ c'.key? = some (.index 0)) ∧
      place.refresh u = .error .detached ∧
      ∃ run fresh, (Run.start twoItems () (.cell 1) []).steps dropPass (.cell 1) 2 = (run, none) ∧
        run.Offers dropPass.rules dropItems fresh run.workspace () ∧
        fresh.Attached run.workspace.store ∧ fresh.top = some (.cell 1) := by
  have hclosed := twoItems_closed
  have hflat : twoItems.store.FlatLists := by
    intro l x hlist hholds
    rcases twoItems_holds hholds with ⟨-, rfl⟩ | ⟨rfl, -⟩
    · rfl
    · exact absurd hlist (by decide)
  let list : Cursor := (Cursor.root (some (.cell 1))).field twoItems.store "statements"
  have hlist : list.Built twoItems.store := .child _ (.root Nat.one_lt_two (by decide))
  let place := list.index twoItems.store 1
  have hplace : place.Built twoItems.store := .child _ hlist
  let removal := Edit.remove (list.index twoItems.store 0)
  have hissued : ∀ d ∈ removal.invalidated, d.Issued twoItems.store := by
    intro d hd
    obtain rfl : d = list := by
      simpa [removal, Edit.invalidated, Cursor.index, Cursor.child, Cursor.parent?] using hd
    exact hlist.issued hclosed
  let t := (removal.apply (some .empty) twoItems.store).1
  let u := (removal.apply (some .empty) t).1
  obtain ⟨hretains, hclosed'⟩ := Edit.apply_retains (some .empty) hclosed hissued
  obtain ⟨hretains', -⟩ := Edit.apply_retains (some .empty) hclosed'
    fun d hd => (hissued d hd).retain hretains
  obtain ⟨hrefresh, hoffers⟩ := refresh_exact
  refine ⟨place, removal, t, u, rfl, by decide, Prod.ext rfl (by decide +kernel),
    Prod.ext rfl (by decide +kernel), ?_, ?_, ?_⟩
  · have hheld : place.Held t :=
      ⟨⟨trivial, .cell 1, .cell 0, rfl, by decide, by decide +kernel⟩, .cell 0, .emptyStatement,
        by decide, by decide, by decide +kernel⟩
    obtain ⟨c', hok, hrefreshed, -⟩ :=
      (hrefresh _ t place hclosed hflat hretains hplace (by decide)).1 hheld
    refine ⟨c', hok, hrefreshed, ?_⟩
    have hkey : (place.refresh? t).bind (·.key?) = some (.index 0) := by decide +kernel
    rwa [Cursor.refresh?, hok] at hkey
  · refine (hrefresh _ u place hclosed hflat (hretains.trans hretains') hplace (by decide)).2 ?_
    rintro ⟨-, r, x, hr, hx, hmem⟩
    obtain rfl : r = .cell 0 := Option.some.inj (hr.symm.trans (by decide))
    have hitem : some x ∈ u.itemsOf (some (.cell 0)) := hmem
    rw [show u.itemsOf (some (.cell 0)) = [] by decide +kernel] at hitem
    cases hitem
  · obtain ⟨run, hrun⟩ : ∃ run, run =
        ((Run.start twoItems () (.cell 1) []).steps dropPass (.cell 1) 2).1 := ⟨_, rfl⟩
    have hending : ((Run.start twoItems () (.cell 1) []).steps dropPass (.cell 1) 2).2 = none := by
      decide +kernel
    have hgoing : (Run.start twoItems () (.cell 1) []).steps dropPass (.cell 1) 2 = (run, none) :=
      Prod.ext hrun.symm hending
    have hsome : (run.pull?.bind fun pulled =>
        pulled.1.refresh? run.workspace.store).isSome = true := by
      rw [hrun]
      decide +kernel
    obtain ⟨fresh, hfresh⟩ := Option.isSome_iff_exists.mp hsome
    obtain ⟨⟨pulled, left⟩, hpull, hfresh⟩ := Option.bind_eq_some_iff.mp hfresh
    have hoffered : run.Offers dropPass.rules dropItems fresh run.workspace () :=
      ⟨⟨pulled, left, hpull, hfresh⟩, [], [], rfl, rfl⟩
    obtain ⟨-, -, hattached, htop⟩ := hoffers Unit dropPass (.cell 1) twoItems () [] 2 run hgoing
      dropItems fresh run.workspace () hoffered
    exact ⟨run, fresh, hgoing, hoffered, hattached dropPass_onlyAdds, htop dropPass_keepsTop⟩

end ScriptSimplifier
