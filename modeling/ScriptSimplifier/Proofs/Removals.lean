import ScriptSimplifier.Proofs.Edits

/-!
# Removing positions of a list

A removal of positions is a batch with one edit for each of them.  Each edit moves the items behind
it, and since the last position comes first, none of them is still to be removed: what stays is the
list without the given positions (`removeAll_exact`).  A batch whose first edit is refused has done
nothing, so positions behind the end leave the list as it is.
-/

namespace ScriptSimplifier

/-! ## Lists without some positions -/

/-- What stays of a list are the items whose positions are not among the given ones. -/
theorem without_eq_filter {α : Type*} (ps : List Nat) (start : Nat) (l : List α) :
    without ps start l = ((l.zipIdx start).filter fun item => item.2 ∉ ps).map Prod.fst := by
  induction l generalizing start with
  | nil => rfl
  | cons a rest ih =>
    rw [without, List.zipIdx_cons, List.filter_cons]
    by_cases hstart : start ∈ ps
    · simp [hstart, ih]
    · simp [hstart, ih]

namespace Edit

variable {s : Store} {pool : Option Pool}

/-! ## Edits without a pool -/

/-- Without a pool nothing is canonical, as with a pool that is empty. -/
theorem editableParent_none (s : Store) (place : Cursor) :
    editableParent none s place = editableParent (some .empty) s place := by
  have hempty : ∀ r, Pool.empty.isConstant r = false := by
    intro r
    cases r <;> simp [Pool.isConstant, Pool.empty, Pool.valueOf?]
  simp [editableParent, hempty]

mutual

theorem apply_none (s : Store) : ∀ edit : Edit, apply none s edit = apply (some .empty) s edit
  | .replace target => by simp only [apply, applyReplace, editableParent_none]
  | .remove target => by simp only [apply, applyRemove, editableParent_none]
  | .batch edits => applyAll_none s 0 edits

theorem applyAll_none (s : Store) (position : Nat) : ∀ edits : List Edit,
    applyAll none s position edits = applyAll (some .empty) s position edits
  | [] => rfl
  | edit :: rest => by
    simp only [applyAll, apply_none s edit, applyAll_none _ (position + 1) rest]

end

/-- Every application is one with a pool that regards the same elements as canonical. -/
theorem exists_pool (pool : Option Pool) : ∃ p : Pool,
    (∀ r, p.isConstant r = pool.any (·.isConstant r)) ∧
      ∀ s edit, apply pool s edit = apply (some p) s edit := by
  cases pool with
  | some p => exact ⟨p, fun _ => rfl, fun _ _ => rfl⟩
  | none =>
    refine ⟨.empty, fun r => ?_, apply_none⟩
    cases r <;> rfl

/-! ## Batches of removals -/

/-- A removal behind the end of a list is refused. -/
theorem apply_remove_behind {pool : Pool} {place : Cursor} {l : Ref}
    (h : Editable pool s place l) (hl : s.isList l = true) {i : Int}
    (hi : (s.itemsOf (some l)).length ≤ i) (u : Store) :
    (Edit.remove (place.index u i)).apply (some pool) s =
      (s, some (.refused (.range "remove" i (s.itemsOf (some l)).length))) := by
  have hposition : ∀ e, Cursor.position (.step place (.index i) e) = i := fun _ => rfl
  suffices happly : ∀ e, applyRemove (some pool) s (.step place (.index i) e) =
      .error (.refused (.range "remove" i (s.itemsOf (some l)).length)) by
    simp only [Cursor.index, Cursor.child, apply, happly]
  intro e
  simp [applyRemove, h _ e, Except.mapError, bind, Except.bind, hl, Store.removeItem?, hposition,
    Int.not_lt.mpr hi, throw, throwThe, MonadExceptOf.throw]

/-- The greatest position comes first. -/
theorem descending_eq_cons {positions : List Int} {m : Int} (hm : m ∈ positions)
    (hmax : ∀ i ∈ positions, i ≤ m) : ∃ rest, descending positions = m :: rest := by
  have hdesc := pairwise_descending positions
  have hmem := mem_descending.mpr hm
  cases hds : descending positions with
  | nil => simp [hds] at hmem
  | cons d rest =>
    have hd : d ≤ m := hmax d (mem_descending.mp (by rw [hds]; exact List.mem_cons_self))
    rw [hds] at hdesc hmem
    rcases List.mem_cons.mp hmem with rfl | hmem
    · exact ⟨rest, rfl⟩
    · have := (List.pairwise_cons.mp hdesc).1 m hmem
      omega

/-- Removing positions of a list takes out exactly the items at these positions.

The list may stand anywhere, if the node that holds it is no canonical fragment, and the positions
may come in any order and repeatedly.  If the list has them all, what stays are the items at the
other positions in their order, and no other element changes.  If the greatest is behind the end,
the removal is refused for it and nothing changes.  There is one edit for each position, the last
position first. -/
theorem removeAll_exact (pool : Option Pool) {s : Store} {place : Cursor} {l : Ref}
    (hl : place.list? s = some l)
    (howner : pool.any (·.isConstant ((place.owner? s).bind (·.node? s))) = false)
    (u : Store) (positions : List Int) :
    ((∀ i ∈ positions, 0 ≤ i ∧ i < (s.itemsOf (some l)).length) →
      ∃ t, (removeAll u place positions).apply pool s = (t, none) ∧
        t.items? l = some (((s.itemsOf (some l)).zipIdx.filter fun item =>
          (item.2 : Int) ∉ positions).map Prod.fst) ∧
        ∀ r, r ≠ l → t.get r = s.get r) ∧
    (∀ m ∈ positions, (∀ i ∈ positions, i ≤ m) → (s.itemsOf (some l)).length ≤ m →
      (removeAll u place positions).apply pool s =
        (s, some (.refused (.inBatch 0 (.range "remove" m (s.itemsOf (some l)).length))))) ∧
    ∃ ds : List Int, ds.Pairwise (· > ·) ∧ (∀ i, i ∈ ds ↔ i ∈ positions) ∧
      (removeAll u place positions).edits = ds.map fun i => .remove (place.index u i) := by
  obtain ⟨p, hconstant, hpool⟩ := exists_pool pool
  have heditable : Editable p s place l := editable_list hl (by rw [hconstant, howner])
  have hlist : s.isList l = true := (Option.filter_eq_some_iff.mp hl).2
  obtain ⟨items, hitems⟩ : ∃ items, s.get l = .list items := by
    cases hget : s.get l with
    | node label kids => simp [Store.isList, hget] at hlist
    | list items => exact ⟨items, rfl⟩
  have hof : s.itemsOf (some l) = items := by simp [Store.itemsOf, Store.items?, hitems]
  rw [hpool]
  refine ⟨fun hrange => ?_, fun m hm hmax hbehind => ?_, descending positions,
    pairwise_descending _, fun i => mem_descending, rfl⟩
  · rw [hof] at hrange ⊢
    lift positions to List Nat using fun i hi => (hrange i hi).1
    have hlt : ∀ i ∈ positions, i < items.length :=
      fun i hi => Int.ofNat_lt.mp (hrange i (List.mem_map_of_mem hi)).2
    refine ⟨_, apply_removeAll heditable hitems hlt u, ?_, fun r hr => Store.get_refill_ne _ hr⟩
    simp only [Store.items?, get_refill_list hitems, without_eq_filter, mem_map_cast]
  · -- the greatest position comes first, so the batch ends before it has changed anything
    obtain ⟨rest, hrest⟩ := descending_eq_cons hm hmax
    rw [removeAll_eq, hrest, List.map_cons, apply, applyAll,
      apply_remove_behind heditable hlist hbehind]
    rfl

/-- Positions of the statements of a block, in range in any order and repeatedly, and behind the
end. -/
theorem removeAll_exact_block :
    ∃ s : Store, ∃ place : Cursor, place.list? s = some (.cell 0) ∧
      s.items? (.cell 0) = some [some .emptyStatement, some (.cell 2), some .emptyStatement] ∧
      (∃ t, (removeAll s place [2, 0, 2]).apply (some .empty) s = (t, none) ∧
        t.items? (.cell 0) = some [some (.cell 2)]) ∧
      (removeAll s place [0, 3, 1]).apply (some .empty) s =
        (s, some (.refused (.inBatch 0 (.range "remove" 3 3)))) := by
  let s : Store := ⟨#[.list [some .emptyStatement, some (.cell 2), some .emptyStatement],
    .node .block [some (.cell 0)], .node (.breakStatement []) []]⟩
  let place : Cursor := .field s (.root (some (.cell 1))) "statements"
  have hlist : place.list? s = some (.cell 0) := by decide
  have hremove := removeAll_exact (some .empty) hlist (by decide) s
  obtain ⟨⟨t, happly, hitems, -⟩, -⟩ := (hremove [2, 0, 2]).imp (fun h => h (by decide)) id
  exact ⟨s, place, hlist, by decide, ⟨t, happly, hitems.trans (by decide)⟩,
    (hremove [0, 3, 1]).2.1 3 (by decide) (by decide) (by decide)⟩

end Edit

end ScriptSimplifier
