import ScriptSimplifier.Proofs.Pass.Freshness
import ScriptSimplifier.Proofs.Rule.ListSteps
import ScriptSimplifier.Proofs.Rule.Steps
import ScriptSimplifier.Rule.Catalog
import ScriptSimplifier.Rule.Scripted

/-!
# Positions from zero up

Refreshing a place looks at the position of every item on the way to it, and a position below zero
is at fault there (`Cursor.Stale.negativeIndex`).  A rule may well speak of one: what it finds there
is an empty place, and an edit of that place is refused.  So no item stands below zero on the way to
a place that a walk visits (`Run.Noted`), or to one that an applied edit touched
(`Edit.NonNegative.invalidated`), and a run never comes upon the fault
(`Run.refreshes_without_fault`).
-/

namespace ScriptSimplifier

namespace Cursor

variable {s t : Store} {c d : Cursor}

/-! ## Places -/

/-- No item on the way stands below position zero.  Where nothing is found the position is of no
account. -/
def NonNegative : Cursor → Prop
  | .root _ => True
  | .step parent key e => parent.NonNegative ∧ ∀ i, key = .index i → e.isSome = true → 0 ≤ i

theorem NonNegative.child (h : c.NonNegative) (s : Store) (key : Key) :
    (c.child s key).NonNegative := by
  refine ⟨h, ?_⟩
  rintro i rfl hsome
  obtain ⟨x, hx⟩ := Option.isSome_iff_exists.mp hsome
  cases hr : c.element with
  | none => rw [hr] at hx; cases hx
  | some r =>
    rw [hr] at hx
    exact Store.itemAt?_nonneg (Option.join_eq_some_iff.mp hx)

theorem inherited_nonNegative : Inherited NonNegative := by
  intro s c hc d hd
  obtain ⟨key, rfl⟩ := mem_children hd
  exact hc.child s key

theorem NonNegative.parent (h : c.NonNegative) (hd : d ∈ c.parent?.toList) : d.NonNegative := by
  cases c with
  | root e => cases hd
  | step parent key e =>
    obtain rfl := List.mem_singleton.mp hd
    exact h.1

theorem NonNegative.retraced (h : c.NonNegative) (s : Store) :
    (Run.retraced s c).NonNegative := by
  induction c with
  | root e => trivial
  | step parent key e ih =>
    rw [Run.retraced]
    split
    · exact ih h.1
    · exact h

/-! ## Refreshing -/

theorem refreshItem_without_fault {l x : Ref} {i : Int} (hi : 0 ≤ i) :
    refreshItem t l x i ≠ .error .negativeIndex := by
  by_cases hmem : some x ∈ t.itemsOf (some l)
  · rcases refreshItem_held hi hmem with ⟨-, hitem⟩ | ⟨-, j, hitem, -⟩
    · rw [hitem]
      exact fun h => by cases h
    · rw [hitem]
      exact fun h => by cases h
  · rw [refreshItem_lost hi hmem]
    exact fun h => by cases h

/-- Refreshing is at fault only at an item below position zero. -/
theorem NonNegative.refresh (h : c.NonNegative) : c.refresh t ≠ .error .negativeIndex := by
  induction c with
  | root e => exact fun hfault => by cases hfault
  | step parent key e ih =>
    cases hparent : parent.refresh t with
    | error stale =>
      -- what is wrong further up is wrong here
      intro hfault
      have hstale : (Cursor.step parent key e).refresh t = .error stale := by
        simp only [Cursor.refresh, hparent, bind, Except.bind]
      rw [hstale] at hfault
      exact ih h.1 (hparent.trans hfault)
    | ok p =>
      intro hfault
      simp only [Cursor.refresh, hparent, bind, Except.bind] at hfault
      split at hfault
      · rename_i r i hr
        cases e with
        | none => cases hfault
        | some x =>
          dsimp only at hfault
          split at hfault
          · cases hitem : refreshItem t r x i with
            | ok j => rw [hitem] at hfault; cases hfault
            | error stale =>
              rw [hitem] at hfault
              obtain rfl := Except.error.inj hfault
              exact refreshItem_without_fault (h.2 i rfl rfl) hitem
          · cases hfault
      · split at hfault <;> cases hfault
      · cases hfault

/-- Whatever the place was, the items on the refreshed way were found in their lists. -/
theorem refresh_nonNegative (h : c.refresh t = .ok d) : d.NonNegative := by
  induction refreshes_of_refresh h with
  | root e => trivial
  | field hparent _ _ _ ih => exact ⟨ih hparent.refresh, fun i hi => by cases hi⟩
  | index hparent _ _ _ hitem ih =>
    refine ⟨ih hparent.refresh, ?_⟩
    rintro i hi -
    obtain rfl := Key.index.inj hi
    exact Store.itemAt?_nonneg (refreshItem_ok hitem)

theorem refresh?_nonNegative (h : c.refresh? t = some d) : d.NonNegative :=
  refresh_nonNegative (refresh_of_refresh? h)

end Cursor

/-! ## Edits -/

namespace Edit

variable {pool : Option Pool} {s t : Store} {place target : Cursor}

mutual

/-- The places whose elements an edit writes to. -/
def holders : Edit → List Cursor
  | .replace target => target.parent?.toList
  | .remove target => target.parent?.toList
  | .batch edits => holdersAll edits

/-- The places whose elements some edits write to. -/
def holdersAll : List Edit → List Cursor
  | [] => []
  | edit :: rest => edit.holders ++ holdersAll rest

end

theorem mem_holdersAll {edits : List Edit} {d : Cursor} :
    d ∈ holdersAll edits ↔ ∃ edit ∈ edits, d ∈ edit.holders := by
  induction edits with
  | nil => simp [holdersAll]
  | cons edit rest ih => simp [holdersAll, ih]

/-- An edit writes only to places with no item below position zero on the way.  The targets
themselves may be anywhere. -/
def NonNegative (edit : Edit) : Prop := ∀ d ∈ edit.holders, d.NonNegative

theorem NonNegative.batch {edits : List Edit} (h : ∀ edit ∈ edits, edit.NonNegative) :
    (Edit.batch edits).NonNegative := by
  intro d hd
  obtain ⟨edit, hedit, hd⟩ := mem_holdersAll.mp hd
  exact h edit hedit d hd

theorem holders_put (place : Cursor) (n : Option Ref) :
    (Edit.put place n).holders = place.parent?.toList := by
  cases place <;> rfl

mutual

/-- The places that an edit writes to are among those that it touches. -/
theorem holders_subset (edit : Edit) : edit.holders ⊆ edit.invalidated := by
  match edit with
  | .replace target => exact List.subset_cons_self target target.parent?.toList
  | .remove target => exact List.Subset.refl _
  | .batch edits => exact holdersAll_subset edits

/-- The same of some edits. -/
theorem holdersAll_subset (edits : List Edit) : holdersAll edits ⊆ invalidatedAll edits := by
  match edits with
  | [] => exact List.Subset.refl _
  | edit :: rest =>
    exact List.append_subset.mpr ⟨List.subset_append_of_subset_left _ (holders_subset edit),
      List.subset_append_of_subset_right _ (holdersAll_subset rest)⟩

end

theorem NonNegative.put (h : place.NonNegative) (n : Option Ref) :
    (Edit.put place n).NonNegative := by
  intro d hd
  rw [holders_put] at hd
  exact h.parent hd

theorem NonNegative.remove (h : place.NonNegative) : (Edit.remove place).NonNegative :=
  fun _ hd => h.parent hd

theorem NonNegative.removals (h : place.NonNegative) (s : Store) (positions : List Int) :
    (Edit.batch (positions.map fun i => .remove (place.index s i))).NonNegative := by
  refine NonNegative.batch fun edit hedit => ?_
  obtain ⟨i, -, rfl⟩ := List.mem_map.mp hedit
  exact NonNegative.remove (h.child s _)

/-- No name of a node is empty, so nothing is written there at a position. -/
theorem setChild_empty_name {x : Ref} {e : Element} (h : s.setChild x "" e = .ok t) :
    s.isList x = true := by
  rcases Store.setChild_cases h with ⟨hkind, -⟩ | ⟨kind, m, c, held, u, -, hwrites, -⟩
  · cases hget : s.get x with
    | node label kids => simp [Store.kind?, Store.label?, hget] at hkind
    | list items => simp [Store.isList, hget]
  · cases kind <;> cases hwrites

/-- What is replaced at a position stands from zero up. -/
theorem applyReplace_position (h : applyReplace pool s target = .ok t) {i : Int}
    (hkey : target.key? = some (.index i)) : 0 ≤ i := by
  unfold applyReplace at h
  dsimp only at h
  split at h
  · cases h
  · obtain ⟨holder, -, h⟩ := ok_of_bind h
    rw [Cursor.position, Cursor.fieldName, hkey] at h
    split at h
    · rename_i hlist
      dsimp only at h
      split at h
      · rename_i u hset
        unfold Store.setItem? at hset
        dsimp only at hset
        split at hset
        · rename_i hrange
          exact hrange.1
        · cases hset
      · cases h
    · rename_i hnode
      exact absurd (setChild_empty_name (ok_of_mapError h)) hnode

mutual

/-- The places that an applied edit touched: those it wrote to, and those where it put something,
which are positions that their lists have. -/
theorem NonNegative.invalidated {t : Store} (edit : Edit) (s : Store) (hedit : edit.NonNegative)
    (happly : edit.apply pool s = (t, none)) : ∀ d ∈ edit.invalidated, d.NonNegative := by
  match edit with
  | .replace target =>
    rw [apply] at happly
    split at happly
    · rename_i u hreplace
      intro d hd
      rcases List.mem_cons.mp hd with rfl | hd
      · cases d with
        | root e => trivial
        | step parent key e =>
          refine ⟨hedit parent (List.mem_singleton.mpr rfl), ?_⟩
          rintro i rfl -
          exact applyReplace_position hreplace rfl
      · exact hedit d hd
    · cases (Prod.mk.inj happly).2
  | .remove target => exact hedit
  | .batch edits =>
    rw [apply] at happly
    exact NonNegative.invalidatedAll edits s 0
      (fun edit hmem d hd => hedit d (mem_holdersAll.mpr ⟨edit, hmem, hd⟩)) happly

/-- The same of edits in order. -/
theorem NonNegative.invalidatedAll {t : Store} (edits : List Edit) (s : Store) (position : Nat)
    (hedits : ∀ edit ∈ edits, edit.NonNegative)
    (happly : applyAll pool s position edits = (t, none)) :
    ∀ d ∈ Edit.invalidatedAll edits, d.NonNegative := by
  match edits with
  | [] => exact fun d hd => nomatch hd
  | edit :: rest =>
    rw [applyAll] at happly
    split at happly
    · rename_i u hfirst
      intro d hd
      rcases List.mem_append.mp hd with hd | hd
      · exact NonNegative.invalidated edit s (hedits edit List.mem_cons_self) hfirst d hd
      · exact NonNegative.invalidatedAll rest u (position + 1)
          (fun edit hmem => hedits edit (List.mem_cons_of_mem _ hmem)) happly d hd
    · cases (Prod.mk.inj happly).2

end

end Edit

/-! ## Rules -/

section Rules

variable {σ : Type}

/-- Edits of the rule write only to places with no item below position zero on the way, if it was
offered one. -/
def Rule.NonNegative (rule : Rule σ) : Prop :=
  ∀ place w memory proposal edit, place.NonNegative → rule.propose place w memory = .ok proposal →
    proposal.edit = some edit → edit.NonNegative

variable {place : Cursor} {w w' : Workspace} {edit : Edit}

/-- Flattening replaces the block, whatever the block holds. -/
theorem Statements.flattenBlock_put (h : Statements.flattenBlock place w = some (edit, w')) :
    ∃ n, edit = .put place n := by
  rw [Statements.flattenBlock] at h
  obtain ⟨r, -, h⟩ := Option.bind_eq_some_iff.mp h
  split at h
  · split at h
    · obtain ⟨rfl, -⟩ := Prod.mk.inj (Option.some.inj h)
      exact ⟨_, rfl⟩
    · obtain ⟨rfl, -⟩ := Prod.mk.inj (Option.some.inj h)
      exact ⟨_, rfl⟩
    · cases h
  · cases h

/-- A rewritten list is touched at positions that it has. -/
theorem Sequences.Rewrites.nonNegative {l : Ref} {items items' : List (Option Ref)}
    (h : Rewrites w place edit w' l items items') (hplace : place.NonNegative) :
    edit.NonNegative := by
  intro d hd
  rcases h.invalidated d (Edit.holders_subset edit hd) with rfl | ⟨i, n, rfl⟩
  · exact hplace
  · refine ⟨hplace, ?_⟩
    rintro j hj -
    obtain rfl := Key.index.inj hj
    exact Int.natCast_nonneg i

theorem Simplification.propose_nonNegative {simplification : Simplification}
    (h : simplification.propose place w = some (edit, w')) (hplace : place.NonNegative) :
    edit.NonNegative := by
  cases simplification with
  | deblock =>
    obtain ⟨n, rfl⟩ := Statements.flattenBlock_put h
    exact .put hplace n
  | dropDead =>
    obtain ⟨l, before, jump, after, -, -, hrewrites⟩ := Sequences.dropUnreachable_step h
    exact hrewrites.nonNegative hplace
  | sequenceFusion =>
    obtain ⟨l, items, items', -, -, -, hrewrites⟩ := Sequences.fuseRuns_step h
    exact hrewrites.nonNegative hplace
  | completionFusion =>
    obtain ⟨l, before, statement, next, after, first, label, second, -, -, -, hrewrites⟩ :=
      Sequences.fuseCompletion_step h
    exact hrewrites.nonNegative hplace
  | ifToConditional =>
    obtain ⟨r, n, -, -, rfl⟩ := lowerIf_step h
    exact .put hplace n
  | foldConstant =>
    obtain ⟨r, n, -, -, rfl⟩ := foldOperation_step h
    exact .put hplace n
  | foldConditional =>
    obtain ⟨r, n, -, -, rfl⟩ := foldConditional_step h
    exact .put hplace n

theorem Simplification.rule_nonNegative (simplification : Simplification) :
    (simplification.rule : Rule σ).NonNegative := by
  intro place w memory proposal edit hplace hpropose hedit
  unfold Simplification.rule Rule.plain at hpropose
  dsimp only at hpropose
  split at hpropose
  · rename_i hsome
    obtain rfl := Except.ok.inj hpropose
    obtain rfl := Option.some.inj hedit
    exact Simplification.propose_nonNegative hsome hplace
  · obtain rfl := Except.ok.inj hpropose
    cases hedit

theorem Action.putMaterial_nonNegative {m : Material}
    (h : Action.putMaterial place w m = .ok (edit, w')) (hplace : place.NonNegative) :
    edit.NonNegative := by
  obtain ⟨⟨r, store⟩, -, h⟩ := ok_of_bind h
  obtain ⟨rfl, -⟩ := Prod.mk.inj (Except.ok.inj h)
  exact .put hplace r

theorem Action.exchange_nonNegative (s : Store) {a b : Cursor} (ha : a.NonNegative)
    (hb : b.NonNegative) : (Action.exchange s a b).NonNegative := by
  refine Edit.NonNegative.batch fun edit hedit => ?_
  rcases List.mem_pair.mp hedit with rfl | rfl
  · exact .put ha _
  · exact .put hb _

/-- A scripted action writes to the place itself, or directly above or below it. -/
theorem Action.edit_nonNegative {action : Action} (h : action.edit place w = .ok (edit, w'))
    (hplace : place.NonNegative) : edit.NonNegative := by
  cases action with
  | remove =>
    obtain ⟨rfl, -⟩ := Prod.mk.inj (Except.ok.inj h)
    exact .remove hplace
  | replace material => exact putMaterial_nonNegative h hplace
  | constant value =>
    cases value with
    | none => cases h
    | some v =>
      obtain ⟨rfl, -⟩ := Prod.mk.inj (Except.ok.inj h)
      exact .put hplace _
  | removeChild field =>
    obtain ⟨rfl, -⟩ := Prod.mk.inj (Except.ok.inj h)
    exact .remove (hplace.child _ _)
  | replaceChild field material => exact putMaterial_nonNegative h (hplace.child _ _)
  | hoist field =>
    obtain ⟨rfl, -⟩ := Prod.mk.inj (Except.ok.inj h)
    exact .put hplace _
  | swap first second =>
    obtain ⟨rfl, -⟩ := Prod.mk.inj (Except.ok.inj h)
    exact exchange_nonNegative _ (hplace.child _ _) (hplace.child _ _)
  | removeAll positions =>
    obtain ⟨rfl, -⟩ := Prod.mk.inj (Except.ok.inj h)
    exact .removals hplace _ _
  | removeEach positions =>
    obtain ⟨rfl, -⟩ := Prod.mk.inj (Except.ok.inj h)
    exact .removals hplace _ _
  | swapItems positions =>
    rcases positions with _ | ⟨i, _ | ⟨j, rest⟩⟩
    · cases h
    · cases h
    · obtain ⟨rfl, -⟩ := Prod.mk.inj (Except.ok.inj h)
      exact exchange_nonNegative _ (hplace.child _ _) (hplace.child _ _)

theorem Script.rule_nonNegative (script : Script) (number : Nat) :
    (script.rule number).NonNegative := by
  intro place w journal proposal edit hplace hpropose hedit
  dsimp only [Script.rule] at hpropose
  split at hpropose
  · obtain rfl := Except.ok.inj hpropose
    cases hedit
  · obtain ⟨holds, -, hpropose⟩ := ok_of_bind hpropose
    split at hpropose
    · obtain rfl := Except.ok.inj hpropose
      cases hedit
    · obtain ⟨⟨edit', w'⟩, haction, hpropose⟩ := ok_of_bind hpropose
      obtain rfl := Except.ok.inj hpropose
      obtain rfl := Option.some.inj hedit
      exact Action.edit_nonNegative haction hplace

end Rules

/-! ## Runs -/

/-- A run never comes upon the fault that refreshing has.  Whatever the rules are, it does not arise
at a place that a walk visits.  After an edit that was applied, it does not arise at a place that
the edit touched either, if the rules write only below places that they were offered or found from
there. -/
theorem Run.refreshes_without_fault {σ : Type} (pass : Pass σ) (root : Ref) (w : Workspace)
    (memory : σ) (before : Text) (fuel : Nat) (run : Run σ)
    (hrun : run = ((Run.start w memory root before).steps pass root fuel).1) :
    (∀ place left, run.pull? = some (place, left) →
      place.refresh run.workspace.store ≠ .error .negativeIndex) ∧
    ((∀ rule ∈ pass.rules, rule.NonNegative) → ∀ attempt store,
      run.attempt? pass.rules = some attempt →
      attempt.edit.apply (some attempt.run.workspace.pool) attempt.run.workspace.store =
        (store, none) →
      ∀ d ∈ attempt.edit.invalidated,
        (Run.retraced store d).refresh store ≠ .error .negativeIndex) := by
  have hnoted : run.Noted Cursor.NonNegative := by
    rw [hrun]
    refine Run.steps_keep (fun run => Run.Noted.step Cursor.inherited_nonNegative ?_ ?_)
      (Run.noted_start Cursor.inherited_nonNegative w memory before trivial) fuel
    · exact fun s c d _ hd => Cursor.refresh?_nonNegative hd
    · intro rule _ place w memory proposal edit _ _ _ s c hc
      obtain ⟨d, -, hrefresh, -⟩ := Run.mem_tainted hc
      exact Cursor.refresh?_nonNegative hrefresh
  refine ⟨fun place left hpull => (hnoted.pulled hpull).2.1.refresh, ?_⟩
  intro hrules attempt store hattempt happly d hd
  obtain ⟨place, left, w', memory', hpull, hfresh, hoffer, -⟩ := Run.attempt?_eq_some hattempt
  obtain ⟨rule, hrule, w'', memory'', proposal, hpropose, hedit⟩ := Run.offer_edit hoffer
  have hnonneg : attempt.edit.NonNegative := hrules rule hrule _ w'' memory'' proposal attempt.edit
    (Cursor.refresh?_nonNegative hfresh) hpropose hedit
  exact ((Edit.NonNegative.invalidated attempt.edit _ hnonneg happly d hd).retraced store).refresh

end ScriptSimplifier
