import ScriptSimplifier.Proofs.Pass.Innermost
import ScriptSimplifier.Proofs.Pass.Validity
import ScriptSimplifier.Proofs.Rule.Quiet

/-!
# The order of the rules does not matter

A rule has its turn at a place when everything below the place is settled, so the edit that it
proposes keeps the normal form of the tree (`Simplification.keeps_normal`).  When a run ends, no
rule fires anywhere and the tree is its normal form.  The normal form depends on which rules there
are, and not on their order.
-/

namespace ScriptSimplifier

open Workspace Sequences Statements

variable {strict : Strictness} {root : Ref} {w w' : Workspace} {sims : List Simplification}

/-! ## Exact pools -/

theorem Workspace.Exact.conditional (hx : w.Exact) (hw : w.Kept strict) {label : Label}
    (hlabel : isCarrier label) {test x y : Option Ref}
    (hparts : ∀ e ∈ [test, x, y], w.IsOperandOf strict e) :
    (conditionalStatement w label test x y).2.Exact := by
  obtain ⟨hbuilds, hop⟩ := builds_conditional hw hparts
  obtain ⟨hadds, -⟩ := builds_carrier hw hlabel hbuilds hop
  rw [conditionalStatement_eq]
  exact hx.grow hw hadds.grows hadds.kept rfl

theorem NodeStep.exact (hw : w.Kept strict) (hx : w.Exact) {r : Ref} {n : Option Ref}
    (h : NodeStep w r n w') : w'.Exact := by
  have hbuilds := (h.effect hw).builds
  cases h with
  | emptied hr hblock hlist => exact hx
  | unwrapped hr hblock hlist => exact hx
  | @returned c a test x y hr hc ha =>
    obtain ⟨hbx, -, -, -⟩ := builds_returned hw hc ha
    obtain ⟨hkept, hparts⟩ := returned_parts hw hr hc ha
    exact ((hx.orUndefined hw x).orUndefined hbx.kept y).conditional hkept (.inl rfl) hparts
  | lowered hlabel hr hc ha => exact hx.grow hw hbuilds.grows hbuilds.kept rfl
  | selected hr hv => exact hx
  | unary hr hfree hu hv => exact (hx.constant hw _).1
  | binary hr hfree ha hb hv => exact (hx.constant hw _).1

theorem Alters.exact (hw : w.Kept strict) (hx : w.Exact) {x : Ref} {kids : List (Option Ref)}
    (h : Alters w w' x kids) : w'.Exact := by
  have hsuits := h.suits hw
  cases h with
  | node hstep hi => exact hstep.exact hw hx
  | list hget hstep => exact hx.grow hw hsuits.grows hsuits.kept hstep.pool

namespace Workspace

/-- A change of what is not shared leaves the fragments alone. -/
theorem Exact.refill (hx : w.Exact) (hw : w.Kept strict) {x : Ref} {kids : List (Option Ref)}
    (hown : w.shares x = false) (ht : (w.refill x kids).store.Acyclic) :
    (w.refill x kids).Exact := by
  refine ⟨⟨hx.values, fun v r h => ?_⟩, hx.basic⟩
  refine (tree_refill hw.acyclic ht ?_).trans (hx.tree v r h)
  intro r' hr hreaches
  obtain rfl := Option.some.inj hr
  have hconstant := hw.constant_reaches (Pool.isConstant_iff.mpr ⟨v, h⟩) hreaches
  simp [shares, hconstant] at hown

/-! ## Normal forms and changes -/

theorem simplified_refill (w : Workspace) (x : Ref) (kids : List (Option Ref)) (r : Ref) :
    (w.refill x kids).simplified sims r = w.simplified sims r := by
  funext children
  have hlabel := w.store.label?_refill x kids r
  simp only [simplified, Workspace.refill]
  cases w.pool.valueOf? r with
  | some v => rfl
  | none =>
    cases hr : w.store.get r <;> cases hr' : (w.store.refill x kids).get r <;>
      simp_all [Store.label?]

/-- What does not lie above the changed element has the normal form that it had before. -/
theorem normal_refill {x : Ref} {kids : List (Option Ref)} (hs : w.store.Acyclic)
    (ht : (w.refill x kids).store.Acyclic) {e : Option Ref}
    (he : ∀ r, e = some r → ¬ w.store.Reaches r x) :
    (w.refill x kids).normal sims e = w.normal sims e :=
  fold_refill hs ht (fun r _ => simplified_refill w x kids r) he

/-- If the changed element has its old normal form, so has everything. -/
theorem normal_exchange {x : Ref} {kids : List (Option Ref)} (hs : w.store.Acyclic)
    (ht : (w.refill x kids).store.Acyclic)
    (h : (w.refill x kids).normal sims (some x) = w.normal sims (some x)) (r : Ref) :
    (w.refill x kids).normal sims (some r) = w.normal sims (some r) := by
  induction r using ht.induction with
  | step r ih =>
    by_cases hr : r = x
    · exact hr ▸ h
    · have hbelow : (w.refill x kids).store.below r = w.store.below r := Store.below_set_ne _ hr
      rw [normal, normal, ht.fold_some, hs.fold_some, simplified_refill, hbelow]
      congr 1
      refine List.map_congr_left fun e he => ?_
      cases e with
      | none => simp
      | some c => exact ih c (by rw [Store.Holds, hbelow]; exact he)

end Workspace

/-- An edit keeps the normal form of the tree if it keeps what the changed element comes to. -/
theorem Changes.normal {place holder : Cursor} {edit : Edit} {x : Ref} {kids : List (Option Ref)}
    (h : Changes root w place edit w' holder x kids) (hw : w.Intact strict root)
    (hsame : w'.simplified sims x (kids.map (w'.normal sims)) =
      w'.simplified sims x ((w.store.below x).map (w.normal sims))) :
    (w'.refill x kids).normal sims (some root) = w.normal sims (some root) := by
  have hsuits := h.alters.suits hw.toKept
  have hac := hsuits.kept.acyclic
  have ht := (h.intact hw).acyclic
  have hknown : w.store.Known x :=
    hw.known_of_reaches hw.root_known (h.live.reaches h.element)
  obtain ⟨n, rfl, hn⟩ := hw.cell_of_own hknown h.own
  have hnew : kids.map ((w'.refill (.cell n) kids).normal sims) = kids.map (w'.normal sims) :=
    List.map_congr_left fun e he => normal_refill hac ht fun r hr =>
      hsuits.not_reaches hw.toKept hknown h.own (hr ▸ he)
  have hold : (w.store.below (.cell n)).map (w'.normal sims) =
      (w.store.below (.cell n)).map (w.normal sims) :=
    List.map_congr_left fun e he => hsuits.grows.normal hw.toKept hsuits.kept (hw.closed.knownAt he)
  have hx : (w'.refill (.cell n) kids).normal sims (some (.cell n)) =
      w'.normal sims (some (.cell n)) := by
    have hsize : n < w'.store.cells.size := hn.trans_le hsuits.grows.store.size
    have hbelow : (w'.refill (.cell n) kids).store.below (.cell n) = kids := by
      rw [Store.below, Workspace.refill, Store.get_refill_self kids ⟨n, rfl, hsize⟩,
        Cell.below_refill]
    rw [Workspace.normal, Workspace.normal, ht.fold_some, hac.fold_some, simplified_refill, hbelow,
      hsuits.grows.store.below hknown]
    exact (congrArg _ hnew).trans (hsame.trans (congrArg _ hold.symm))
  rw [normal_exchange hac ht hx,
    hsuits.grows.normal hw.toKept hsuits.kept (Store.knownAt_some.mpr hw.root_known)]

theorem Changes.exact {place holder : Cursor} {edit : Edit} {x : Ref} {kids : List (Option Ref)}
    (h : Changes root w place edit w' holder x kids) (hw : w.Intact strict root) (hx : w.Exact) :
    (w'.refill x kids).Exact := by
  have hsuits := h.alters.suits hw.toKept
  have hknown : w.store.Known x := hw.known_of_reaches hw.root_known (h.live.reaches h.element)
  refine (h.alters.exact hw.toKept hx).refill hsuits.kept ?_ (h.intact hw).acyclic
  rw [hsuits.grows.shares hknown, h.own]

/-! ## Edits -/

variable {place : Cursor} {edit : Edit}

/-- Below a place where nothing below fires, everything is settled. -/
theorem settled_below (hw : w.Intact strict root) (hplace : place.Live w.store root) {r : Ref}
    (hr : place.element = some r)
    (hquiet : ∀ d, d.Live w.store root → place.Above d → d ≠ place → ¬ Fires sims w d) :
    ∀ e ∈ w.store.below r, w.Settled sims e := by
  intro e he
  cases e with
  | none => exact settled_none
  | some k =>
    obtain ⟨key, hholds⟩ := hw.typed.shaped.holdsAt_of_holds (s := w.store) he
    have hlive : (Cursor.step place key (some k)).Live w.store root :=
      ⟨hplace, r, k, hr, rfl, hholds⟩
    have habove : place.Above (.step place key (some k)) := .inr (Cursor.above_refl place)
    refine settled_of_quiet hw.toKept hw.root_node hlive fun d hd hbelow => ?_
    refine hquiet d hd (habove.trans hbelow) ?_
    rintro rfl
    have hdepth := hbelow.depth_le
    rw [Cursor.depth] at hdepth
    omega

/-- Replacing a child by an element with the same normal form keeps the normal form of the tree. -/
theorem NodeStep.keeps_normal (hw : w.Intact strict root) (hplace : place.Live w.store root)
    {r : Ref} (hr : place.element = some r) {n : Option Ref} (h : NodeStep w r n w')
    (hsame : w'.normal sims n = w.normal sims (some r)) {store : Store}
    (happly : (Edit.put place n).apply (some w'.pool) w'.store = (store, none)) :
    (⟨store, w'.pool⟩ : Workspace).normal sims (some root) = w.normal sims (some root) := by
  have heffect := h.effect hw.toKept
  cases n with
  | none =>
    rw [apply_put_none] at happly
    cases happly
  | some m =>
    cases place with
    | root e =>
      rw [apply_put_root _ heffect.isNode.2] at happly
      cases happly
    | step parent key e =>
      obtain rfl : e = some r := hr
      obtain ⟨x, i, hi, hchanges, happly'⟩ := h.changes hw hplace
      obtain ⟨rfl, -⟩ := Prod.mk.inj (happly.symm.trans happly')
      refine hchanges.normal hw (congrArg _ ?_)
      obtain ⟨hlt, hat⟩ := List.getElem?_eq_some_iff.mp hi
      have hold : (w.store.below x).map (w'.normal sims) = (w.store.below x).map (w.normal sims) :=
        List.map_congr_left fun e he =>
          heffect.builds.grows.normal hw.toKept heffect.builds.kept (hw.closed.knownAt he)
      rw [List.map_set, hold, hsame, ← hat, ← List.getElem_map (w.normal sims) (h := by simpa),
        List.set_getElem_self]

/-- Rewriting a list to items that settle to the same keeps the normal form of the tree. -/
theorem Sequences.Rewrites.keeps_normal (hw : w.Intact strict root)
    (hplace : place.Live w.store root) {l : Ref} {items items' : List (Option Ref)}
    (h : Rewrites w place edit w' l items items')
    (hsame : Sketch.settle sims (items'.map (w'.normal sims)) =
      Sketch.settle sims (items.map (w.normal sims))) {store : Store}
    (happly : edit.apply (some w'.pool) w'.store = (store, none)) :
    (⟨store, w'.pool⟩ : Workspace).normal sims (some root) = w.normal sims (some root) := by
  obtain ⟨hchanges, happly'⟩ := h.changes hw hplace
  obtain ⟨rfl, -⟩ := Prod.mk.inj (happly.symm.trans happly')
  have hsuits := h.step.suits hw.toKept h.list
  have hknown := hw.known_of_reaches hw.root_known (hplace.reaches h.element)
  have hget : w'.store.get l = .list items := (hsuits.grows.store.get l hknown).trans h.list
  have hbelow : w.store.below l = items := by rw [Store.below, h.list, Cell.below]
  refine hchanges.normal hw ?_
  rw [hbelow, simplified, simplified, hsuits.kept.valueOf?_list hget, hget]
  exact congrArg _ hsame

/-- A rule that has its turn where nothing fires below keeps the normal form of the tree. -/
theorem Simplification.keeps_normal (hw : w.Intact strict root) (hx : w.Exact)
    (hplace : place.Live w.store root)
    (hquiet : ∀ d, d.Live w.store root → place.Above d → d ≠ place → ¬ Fires sims w d)
    {sim : Simplification} (hsim : sim ∈ sims) (h : sim.propose place w = some (edit, w'))
    {store : Store} (happly : edit.apply (some w'.pool) w'.store = (store, none)) :
    (⟨store, w'.pool⟩ : Workspace).normal sims (some root) = w.normal sims (some root) := by
  obtain ⟨r, hr⟩ := hplace.element_isSome
  have hbelow := settled_below hw hplace hr hquiet
  have hknown : ∀ e ∈ w.store.below r, w.store.KnownAt e := fun e he => hw.closed.knownAt he
  -- four of the rules replace a node; the others rewrite a list
  have hnode : (∃ r n, place.element = some r ∧ NodeStep w r n w' ∧ edit = .put place n) →
      (⟨store, w'.pool⟩ : Workspace).normal sims (some root) = w.normal sims (some root) := by
    rintro ⟨r', n, hr', hstep, rfl⟩
    obtain rfl := Option.some.inj (hr.symm.trans hr')
    refine hstep.keeps_normal hw hplace hr ?_ happly
    obtain ⟨kind, hkind, -⟩ := (hstep.effect hw.toKept).kind
    cases hget : w.store.get r with
    | list items => simp [Store.kind?_list hget] at hkind
    | node label kids =>
      have hkids : w.store.below r = kids := by rw [Store.below, hget, Cell.below]
      have hsome : (sim.propose place w).isSome = true := by rw [h]; rfl
      refine hstep.normal hw.toKept hx hget ⟨sim, hsim, handles_of_propose hr hget hsome⟩ ?_
        (hkids ▸ hbelow)
      intro test c a x y hif hc ha
      have hhandles := handles_of_propose hr hif hsome
      cases sim with
      | ifToConditional => exact (lowerIf_returned hr hif hc ha).mp hsome
      | _ => cases hhandles
  cases sim with
  | deblock => exact hnode (flattenBlock_step hw.typed h)
  | ifToConditional => exact hnode (lowerIf_step h)
  | foldConstant => exact hnode (foldOperation_step h)
  | foldConditional => exact hnode (foldConditional_step h)
  | dropDead =>
    obtain ⟨l, before, jump, after, hjump, rfl, hrewrites⟩ := dropUnreachable_step h
    exact hrewrites.keeps_normal hw hplace (normal_dropped hw.toCoherent hsim hjump _ _) happly
  | completionFusion =>
    obtain ⟨l, before, statement, next, after, first, label, second, hst, hnext, rfl, hrewrites⟩ :=
      fuseCompletion_step h
    obtain rfl := Option.some.inj (hr.symm.trans hrewrites.element)
    rw [Store.below, hrewrites.list, Cell.below] at hbelow hknown
    refine hrewrites.keeps_normal hw hplace ?_ happly
    refine normal_completed hw.toKept hsim hst hnext (hbelow next (by simp)) ?_ ?_
    · exact fun e he => hknown e (by simp [he])
    · exact fun e he => hknown e (by simp [he])
  | sequenceFusion =>
    obtain ⟨l, items, items', puts, gone, hfuses, hrewrites⟩ := fuseRuns_step h
    obtain rfl := Option.some.inj (hr.symm.trans hrewrites.element)
    rw [Store.below, hrewrites.list, Cell.below] at hbelow hknown
    exact hrewrites.keeps_normal hw hplace
      (hfuses.normal hsim (.refl w) hw.toKept hw.toKept hknown hbelow) happly

/-! ## Runs -/

/-- Which simplifications there are decides about normal forms, not their order. -/
theorem Workspace.normal_congr {sims' : List Simplification}
    (h : ∀ sim, sim ∈ sims ↔ sim ∈ sims') (e : Option Ref) :
    w.normal sims e = w.normal sims' e := by
  have hsame : w.simplified sims = w.simplified sims' := by
    funext r children
    simp only [simplified, Sketch.reduce_congr h, Sketch.settle_congr h]
  rw [normal, normal, hsame]

namespace Run

variable {σ : Type} {pass : Pass σ} {run run' : Run σ} {outcome : Sketch}

/-- The tree of a run leads to an outcome. -/
structure LeadsTo (strict : Strictness) (sims : List Simplification) (root : Ref)
    (outcome : Sketch) (run : Run σ) : Prop where
  ordered : run.Ordered strict sims root
  exact : run.workspace.Exact
  normal : run.workspace.normal sims (some root) = outcome

/-- A step keeps the invariant. -/
theorem Moves.leadsTo (h : Moves sims pass root run run')
    (hrun : run.LeadsTo strict sims root outcome) : run'.LeadsTo strict sims root outcome := by
  have hordered := h.ordered hrun.ordered
  have hintact := hrun.ordered.sound.intact
  cases h with
  | closed htasks hagenda => exact ⟨hordered, hrun.exact, hrun.normal⟩
  | entered htasks hagenda hroot hagenda' => exact ⟨hordered, hrun.exact, hrun.normal⟩
  | left htasks hagenda hroot hagenda' hops hnone => exact ⟨hordered, hrun.exact, hrun.normal⟩
  | @edited task task' rest place fresh visits edit w' store stats htasks hagenda hroot hagenda'
      hproposes happly hvalid =>
    obtain ⟨hlive, holder, x, kids, hchanges, hstore⟩ :=
      Proposes.changes hrun.ordered.sound (mem_agenda htasks hagenda) hproposes happly
    obtain ⟨r, hr⟩ := hlive.element_isSome
    -- the place has its turn, so nothing fires below it
    have hquiet : ∀ d, d.Live run.workspace.store root → fresh.Above d → d ≠ fresh →
        ¬ Fires sims run.workspace d := fun d hd habove hne =>
      hrun.ordered.quiet_below (agenda_cons htasks hagenda) hproposes.refresh (by rw [hr]; rfl) hd
        habove hne
    obtain ⟨sim, hsim, hpropose⟩ := hproposes.propose
    have hnormal := sim.keeps_normal hintact hrun.exact hlive hquiet hsim hpropose happly
    refine ⟨hordered, ?_, ?_⟩
    · rw [workspace_reschedule, hstore]
      exact hchanges.exact hintact hrun.exact
    · rw [workspace_reschedule]
      exact hnormal.trans hrun.normal

/-- When nothing is left to visit, the tree is its normal form. -/
theorem LeadsTo.settled (hrun : run.LeadsTo strict sims root outcome) (htasks : run.tasks = []) :
    run.workspace.sketch (some root) = outcome := by
  have hintact := hrun.ordered.sound.intact
  have hroot : (Cursor.root (some root)).Live run.workspace.store root := rfl
  have hquiet : ∀ d, d.Live run.workspace.store root → (Cursor.root (some root)).Above d →
      ¬ Fires sims run.workspace d := by
    intro d hd _ hfires
    have hinOrder := hrun.ordered.inOrder d hd hfires
    rw [agenda, htasks, List.flatMap_nil, d.line_eq] at hinOrder
    cases hinOrder
  have hsettled := settled_of_quiet hintact.toKept hintact.root_node hroot hquiet
  exact hsettled.symm.trans hrun.normal

/-- A run over a complete script without limit does not end before its work is done. -/
theorem not_halts_script (hlimit : pass.limit = none) (hcomplete : strict.complete = true)
    (hw : w.Intact strict root) (hscript : w.store.kind? root = some .script) {place : Cursor}
    {edit : Edit} {left : Workspace} {ending : Ending} :
    ¬ Halts strict pass root w place edit w' left ending := by
  intro h
  cases h with
  | limited hlimited => exact hlimited hlimit
  | empty hstrict => simp [hcomplete] at hstrict
  | noParent hplace hkind hreplaceable =>
    obtain rfl := Option.some.inj (hscript.symm.trans hkind)
    cases hreplaceable
  | invalid hchanges hvalidates hinvalid =>
    have hvalid := ((isWellFormed_iff hcomplete).mp (hchanges.intact hw).wellFormed).2.2
    simp [hvalid] at hinvalid

/-- A run over a script without limit ends in order, with a tree that is its normal form. -/
theorem script_settles (hrules : pass.rules = sims.map Simplification.rule)
    (hlimit : pass.limit = none) (hcomplete : strict.complete = true)
    (hw : w.Intact strict root) (hx : w.Exact) (hscript : w.store.kind? root = some .script)
    (memory : σ) (before : Text) :
    ∃ n last, (∀ fuel, n ≤ fuel →
        (start w memory root before).steps pass root fuel = (last, some .finished)) ∧
      last.workspace.Intact strict root ∧ last.workspace.Exact ∧
      last.workspace.sketch (some root) = w.normal sims (some root) := by
  have hstart : (start w memory root before).LeadsTo strict sims root (w.normal sims (some root)) :=
    ⟨ordered_start hw memory before, hx, rfl⟩
  obtain ⟨n, last, ending, hlast⟩ := hstart.ordered.sound.ends hrules
  have hends := steps_induction hrules
    (P := fun run => run.LeadsTo strict sims root (w.normal sims (some root)) ∧
      run.workspace.store.kind? root = some .script)
    (fun _ _ hrun h => ⟨h.leadsTo hrun.1,
      ((h.history hrun.1.ordered.sound).kind hrun.1.ordered.sound.intact).trans hrun.2⟩)
    ⟨hstart, hscript⟩ n
  rw [hlast n (Nat.le_refl n)] at hends
  rcases hends with ⟨_, hnone⟩ | ⟨run, ending', ⟨hrun, hkind⟩, hends, hending⟩
  · cases hnone
  · obtain rfl := Option.some.inj hending
    have hintact := hrun.ordered.sound.intact
    rcases hends.cases hrun.ordered.sound with ⟨htasks, rfl, rfl⟩ | ⟨_, _, _, _, _, _, _, hhalts⟩
    · exact ⟨n, last, hlast, hintact, hrun.exact, hrun.settled htasks⟩
    · exact absurd hhalts (not_halts_script hlimit hcomplete hintact hkind)

end Run

/-! ## Joining by commas -/

theorem Store.knownAt_of_isIn {s : Store} {e : Option Ref} (h : s.isIn .expression e = true) :
    s.KnownAt e := by
  rintro (_ | _ | n) rfl
  · trivial
  · trivial
  · by_contra hunknown
    have hcell : s.cells[n]? = none := by simpa [Store.Known] using hunknown
    simp [Store.isIn, Store.kind?, Store.label?, Store.get, hcell] at h
    cases h

/-- Joining three expressions by commas gives the same tree either way. -/
theorem tree_join_assoc (hw : w.Kept strict) (hx : w.Exact) {a b c : Option Ref}
    (ha : w.IsOperandOf strict a) (hb : w.IsOperandOf strict b) (hc : w.IsOperandOf strict c) :
    (join (join w a b).2 (join w a b).1 c).2.store.tree (join (join w a b).2 (join w a b).1 c).1 =
      (join (join w b c).2 a (join w b c).1).2.store.tree
        (join (join w b c).2 a (join w b c).1).1 := by
  obtain ⟨hab, hopab⟩ := builds_join hw ha.1 hb.1 ha.2 hb.2
  obtain ⟨hbc, hopbc⟩ := builds_join hw hb.1 hc.1 hb.2 hc.2
  have hc' : (join w a b).2.IsOperandOf strict c :=
    operands_grow hab.grows hw (List.forall_mem_singleton.mpr hc) c List.mem_cons_self
  have ha' : (join w b c).2.IsOperandOf strict a :=
    operands_grow hbc.grows hw (List.forall_mem_singleton.mpr ha) a List.mem_cons_self
  obtain ⟨hleft, -⟩ := builds_join hab.kept hab.known hc'.1 hopab hc'.2
  obtain ⟨hright, -⟩ := builds_join hbc.kept ha'.1 hbc.known ha'.2 hopbc
  have hleftExact : (join (join w a b).2 (join w a b).1 c).2.Exact :=
    hx.grow hw (hab.grows.trans hleft.grows) hleft.kept (by simp)
  have hrightExact : (join (join w b c).2 a (join w b c).1).2.Exact :=
    hx.grow hw (hbc.grows.trans hright.grows) hright.kept (by simp)
  have hleftSketch : (join (join w a b).2 (join w a b).1 c).2.sketch
      (join (join w a b).2 (join w a b).1 c).1 =
      .seq (.seq (w.sketch a) (w.sketch b)) (w.sketch c) := by
    rw [sketch, normal_join hab.kept ⟨hab.known, hopab⟩ hc' rfl, normal_join hw ha hb rfl,
      hab.grows.normal hw hab.kept hc.1]
    rfl
  have hrightSketch : (join (join w b c).2 a (join w b c).1).2.sketch
      (join (join w b c).2 a (join w b c).1).1 =
      .seq (w.sketch a) (.seq (w.sketch b) (w.sketch c)) := by
    rw [sketch, normal_join hbc.kept ha' ⟨hbc.known, hopbc⟩ rfl, normal_join hw hb hc rfl,
      hbc.grows.normal hw hbc.kept ha.1]
    rfl
  -- the trees need not be compared cell by cell: a sketch determines its tree
  have hsame := hleftSketch.trans ((Sketch.seq_assoc _ _ _).trans hrightSketch.symm)
  cases hroot : (join (join w a b).2 (join w a b).1 c).1 with
  | none =>
    rw [hroot] at hleftSketch
    exact absurd hleftSketch.symm (Sketch.seq_ne_missing _ _)
  | some r =>
    rw [hroot] at hsame
    exact tree_eq_of_sketch hleft.kept hleftExact hright.kept hrightExact hsame

/-! ## Passes -/

variable {σ : Type} {pass : Pass σ}

/-- A pass without limit over a valid script with a fingerprint leaves its normal form. -/
theorem process_script (hrules : pass.rules = sims.map Simplification.rule)
    (hlimit : pass.limit = none) (hcomplete : strict.complete = true)
    (hw : w.Intact strict root) (hx : w.Exact) (hscript : w.store.kind? root = some .script)
    {before : Text} (hbefore : (w.store.tree (some root)).fingerprint? = some before)
    (memory : σ) :
    ∃ n left, (∀ fuel, n ≤ fuel →
        (pass.process fuel w memory (some root)).workspace = left ∧
          (strict.operators = true →
            ∃ stats, (pass.process fuel w memory (some root)).report = .done stats)) ∧
      left.Intact strict root ∧ left.Exact ∧
      left.sketch (some root) = w.normal sims (some root) := by
  have hvalid := ((isWellFormed_iff hcomplete).mp hw.wellFormed).2.2
  obtain ⟨n, last, hlast, hintact, hexact, hsketch⟩ :=
    Run.script_settles hrules hlimit hcomplete hw hx hscript memory before
  refine ⟨n, last.workspace, fun fuel hfuel => ?_, hintact, hexact, hsketch⟩
  simp only [Pass.process, hbefore, hvalid, ite_self, hlast fuel hfuel]
  refine ⟨trivial, fun hoperators => ?_⟩
  obtain ⟨after, hafter⟩ := hintact.fingerprint hoperators
  exact ⟨{ last.stats with after }, by rw [hafter]; rfl⟩

/-- Passes of the same simplifications without limit over a valid script leave the same tree. -/
theorem process_congr {σ' : Type} {pass' : Pass σ'} {sims' : List Simplification}
    (hrules : pass.rules = sims.map Simplification.rule)
    (hrules' : pass'.rules = sims'.map Simplification.rule)
    (hsame : ∀ sim, sim ∈ sims ↔ sim ∈ sims') (hlimit : pass.limit = none)
    (hlimit' : pass'.limit = none) (hcomplete : strict.complete = true)
    (hw : w.Intact strict root) (hx : w.Exact) (hscript : w.store.kind? root = some .script)
    (memory : σ) (memory' : σ') :
    ∃ n, ∀ fuel fuel', n ≤ fuel → n ≤ fuel' →
      (pass.process fuel w memory (some root)).workspace.store.tree (some root) =
        (pass'.process fuel' w memory' (some root)).workspace.store.tree (some root) ∧
      (strict.operators = true →
        (∃ stats, (pass.process fuel w memory (some root)).report = .done stats) ∧
        ∃ stats, (pass'.process fuel' w memory' (some root)).report = .done stats) := by
  cases hbefore : (w.store.tree (some root)).fingerprint? with
  | none =>
    refine ⟨0, fun fuel fuel' _ _ => ⟨by simp [Pass.process, hbefore], fun hoperators => ?_⟩⟩
    obtain ⟨before, hsome⟩ := hw.fingerprint hoperators
    rw [hbefore] at hsome
    cases hsome
  | some before =>
    obtain ⟨n, left, hleft, hintact, hexact, hsketch⟩ :=
      process_script hrules hlimit hcomplete hw hx hscript hbefore memory
    obtain ⟨n', left', hleft', hintact', hexact', hsketch'⟩ :=
      process_script hrules' hlimit' hcomplete hw hx hscript hbefore memory'
    refine ⟨max n n', fun fuel fuel' hfuel hfuel' => ?_⟩
    obtain ⟨rfl, hdone⟩ := hleft fuel (by omega)
    obtain ⟨rfl, hdone'⟩ := hleft' fuel' (by omega)
    refine ⟨tree_eq_of_sketch hintact.toKept hexact hintact'.toKept hexact' ?_, fun hoperators =>
      ⟨hdone hoperators, hdone' hoperators⟩⟩
    rw [hsketch, hsketch', normal_congr hsame]

theorem exact_planted {t : Tree} (ht : t.isWellFormed strict = true) {s : Store}
    (hs : Store.empty.plant t = (some root, s)) : (ofStore s).Exact := by
  simp only [Tree.isWellFormed, Bool.and_eq_true] at ht
  have hplants := Store.plants_plant ht.2 (Store.orderly_empty : Store.empty.Orderly strict)
  rw [hs] at hplants
  exact exact_ofStore hplants.orderly

/-- The order of the rules does not matter.  Let a script be valid.  Two passes without limit, of
the same simplifications in different orders, each over the script in a new workspace, leave the
same tree, and both end in order if every unary operation has an operator.  Behind this stands that
joining by commas is associative: three expressions are joined to the same tree either way. -/
theorem catalog_order_irrelevant {t : Tree} (hshaped : t.isShaped = true)
    (hvalid : t.invalid? = none) (hscript : t.kind? = some .script) {s : Store}
    (hs : Store.empty.plant t = (some root, s)) {σ' : Type} {pass' : Pass σ'}
    {sims' : List Simplification} (hrules : pass.rules = sims.map Simplification.rule)
    (hrules' : pass'.rules = sims'.map Simplification.rule) (hperm : sims.Perm sims')
    (hlimit : pass.limit = none) (hlimit' : pass'.limit = none) (memory : σ) (memory' : σ') :
    (∃ n, ∀ fuel fuel', n ≤ fuel → n ≤ fuel' →
      (pass.process fuel (.ofStore s) memory (some root)).workspace.store.tree (some root) =
        (pass'.process fuel' (.ofStore s) memory' (some root)).workspace.store.tree (some root) ∧
      (t.hasOperators = true →
        (∃ stats, (pass.process fuel (.ofStore s) memory (some root)).report = .done stats) ∧
        ∃ stats, (pass'.process fuel' (.ofStore s) memory' (some root)).report = .done stats)) ∧
    ∀ (strict : Strictness) (w : Workspace) (a b c : Option Ref), w.Kept strict → w.Exact →
      (∀ e ∈ [a, b, c], w.store.isIn .expression e = true) →
      (join (join w a b).2 (join w a b).1 c).2.store.tree
          (join (join w a b).2 (join w a b).1 c).1 =
        (join (join w b c).2 a (join w b c).1).2.store.tree
          (join (join w b c).2 a (join w b c).1).1 := by
  refine ⟨?_, fun strict w a b c hw hx hexpressions => ?_⟩
  · -- a tree with unary operations without operator is as strict as its operators are
    have hwellFormed : t.isWellFormed ⟨true, t.hasOperators⟩ = true :=
      (isWellFormed_iff rfl).mpr ⟨hshaped, id, hvalid⟩
    exact process_congr hrules hrules' (fun _ => hperm.mem_iff) hlimit hlimit' rfl
      (intact_planted hwellFormed hs).1 (exact_planted hwellFormed hs)
      (((Session.planted hs).kind hwellFormed).trans hscript) memory memory'
  · have hparts : ∀ e ∈ [a, b, c], w.IsOperandOf strict e := fun e he =>
      ⟨Store.knownAt_of_isIn (hexpressions e he), isOperand_of_isIn (hexpressions e he)⟩
    exact tree_join_assoc hw hx (hparts a (by simp)) (hparts b (by simp)) (hparts c (by simp))

/-- A script where fusing statements, joining with the return, dropping what is behind it and
folding compete. -/
def rivalScript : Tree :=
  .node .script [.list [.node .expressionStatement [.node (.identifierExpression "a") []],
    .node .expressionStatement [.node (.identifierExpression "b") []],
    .node .returnStatement [.node (.unaryExpression "!") [.node (.booleanLiteral true) []]],
    .node .expressionStatement [.node (.identifierExpression "c") []]]]

theorem catalog_order_irrelevant_rivalScript :
    rivalScript.isShaped = true ∧ rivalScript.invalid? = none ∧ rivalScript.hasOperators = true ∧
      (∃ n, ∀ fuel fuel', n ≤ fuel → n ≤ fuel' →
        ((({} : Options).pass "all" Simplification.all).process fuel
            (.ofStore (Store.empty.plant rivalScript).2) () (some (.cell 10))).workspace.store.tree
            (some (.cell 10)) =
          ((({} : Options).pass "reversed" Simplification.all.reverse).process fuel'
            (.ofStore (Store.empty.plant rivalScript).2) () (some (.cell 10))).workspace.store.tree
            (some (.cell 10)) ∧
        ∃ stats, ((({} : Options).pass "reversed" Simplification.all.reverse).process fuel'
          (.ofStore (Store.empty.plant rivalScript).2) () (some (.cell 10))).report =
            .done stats) ∧
      let w := Workspace.ofStore (Store.empty.plant rivalScript).2
      let a := some (.cell 0)
      let b := some (.cell 2)
      let c := some (.cell 7)
      (join (join w a b).2 (join w a b).1 c).2.store.tree
          (join (join w a b).2 (join w a b).1 c).1 =
        (join (join w b c).2 a (join w b c).1).2.store.tree
          (join (join w b c).2 a (join w b c).1).1 := by
  have hshaped : rivalScript.isShaped = true := by decide
  have hvalid : rivalScript.invalid? = none := by decide +kernel
  have hoperators : rivalScript.hasOperators = true := by decide
  have hwellFormed : rivalScript.isWellFormed .full = true :=
    (isWellFormed_iff rfl).mpr ⟨hshaped, fun _ => hoperators, hvalid⟩
  have hplant : Store.empty.plant rivalScript =
      (some (.cell 10), (Store.empty.plant rivalScript).2) := rfl
  have hrules : (({} : Options).pass "all" Simplification.all).rules =
      Simplification.all.map Simplification.rule := rfl
  have hrules' : (({} : Options).pass "reversed" Simplification.all.reverse).rules =
      Simplification.all.reverse.map Simplification.rule := rfl
  obtain ⟨⟨n, hn⟩, hassoc⟩ := catalog_order_irrelevant hshaped hvalid rfl hplant hrules hrules'
    (List.reverse_perm _).symm rfl rfl () ()
  refine ⟨hshaped, hvalid, hoperators, ⟨n, fun fuel fuel' hfuel hfuel' => ?_⟩, ?_⟩
  · obtain ⟨htree, hdone⟩ := hn fuel fuel' hfuel hfuel'
    exact ⟨htree, (hdone hoperators).2⟩
  · exact hassoc .full _ _ _ _ (intact_planted hwellFormed rfl).1.toKept
      (exact_planted hwellFormed hplant) (by decide)

end ScriptSimplifier
