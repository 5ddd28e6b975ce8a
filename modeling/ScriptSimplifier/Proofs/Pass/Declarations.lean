import ScriptSimplifier.Proofs.Pass.Reoptimization
import ScriptSimplifier.Proofs.Pass.SingleHolder
import ScriptSimplifier.Proofs.Pass.Truncation
import ScriptSimplifier.Proofs.Rule.Quiet
import ScriptSimplifier.Proofs.Rule.Ways

/-!
# Which declarations stay

Dropping the statements behind a jump takes no notice of declarations, although they are hoisted,
and flattening takes jumps and declarations out of blocks.  Still it can be read off the script
which declarations the optimizer keeps: those that nothing cuts off (`Store.Spares`).  The first
phase leaves the ways to these as they are, and it ends where these are all that is left
(`phaseOne_belongs`); the second phase keeps every declaration (`phaseTwo_belongs`).
-/

namespace ScriptSimplifier

open Workspace Sequences Statements

variable {σ : Type} {pass : Pass σ} {sims : List Simplification} {strict : Strictness} {root : Ref}
  {w w' : Workspace} {t : Tree}

/-! ## Applied edits -/

/-- A replacement that was applied gave an element above a new child. -/
theorem NodeStep.refilled (hw : w.Intact strict root) {place : Cursor}
    (hplace : place.Live w.store root) {r : Ref} (hr : place.element = some r) {e : Option Ref}
    (h : NodeStep w r e w') {store : Store}
    (happly : (Edit.put place e).apply (some w'.pool) w'.store = (store, none)) :
    ∃ n x i, e = some n ∧ (w.store.below x)[i]? = some (some r) ∧
      store = w'.store.refill x ((w.store.below x).set i (some n)) := by
  cases e with
  | none =>
    rw [apply_put_none] at happly
    cases happly
  | some n =>
    cases place with
    | root e =>
      rw [apply_put_root _ (h.effect hw.toKept).isNode.2] at happly
      cases happly
    | step parent key e =>
      obtain rfl : e = some r := hr
      obtain ⟨x, i, hi, -, happly'⟩ := h.changes hw hplace
      exact ⟨n, x, i, rfl, hi, (Prod.mk.inj (happly.symm.trans happly')).1⟩

variable {place : Cursor} {sim : Simplification} {edit : Edit} {store : Store}

/-- Only flattening proposes something at a block statement, and it does so nowhere else. -/
theorem Simplification.kind_iff_deblock {r : Ref} (hr : place.element = some r)
    (h : sim.propose place w = some (edit, w')) :
    w.store.kind? r = some .blockStatement ↔ sim = .deblock := by
  cases hget : w.store.get r with
  | node label kids =>
    have hhandles : sim.handles label.kind = true :=
      Simplification.handles_of_propose hr hget (by simp [h])
    rw [Store.kind?_node hget, Option.some_inj]
    cases sim <;> cases label <;> simp_all [Simplification.handles, Label.kind]
  | list items =>
    rw [Store.kind?_list hget]
    refine iff_of_false (by simp) ?_
    rintro rfl
    have hnode : place.node? w.store = none := by simp [Cursor.node?, hr, Store.isList, hget]
    simp [Simplification.propose, flattenBlock, hnode] at h

/-- An edit of the first phase that was applied leaves the same ways to what no jump cuts off. -/
theorem Simplification.spares (hw : w.Intact strict root) (hplace : place.Live w.store root)
    (hsim : sim ∈ Simplification.phaseOne) (h : sim.propose place w = some (edit, w'))
    (happly : edit.apply (some w'.pool) w'.store = (store, none)) :
    w.store.SameWays w.store.Jumps store store.Jumps := by
  rcases (by simpa [Simplification.phaseOne] using hsim : sim = .deblock ∨ sim = .dropDead) with
    rfl | rfl
  · obtain ⟨r, e, hr, hstep, rfl⟩ := flattenBlock_step hw.typed h
    have hkind := (Simplification.kind_iff_deblock hr h).mpr rfl
    obtain ⟨n, x, i, rfl, hi, rfl⟩ := hstep.refilled hw hplace hr happly
    have hn : w'.store.kind? n ≠ some .functionBody := hstep.statement hw.toKept hkind
    generalize hm : some n = e at hstep
    cases hstep with
    | emptied hget hblock hlist =>
      obtain rfl := Option.some.inj hm
      exact .of_unwrap hw.typed hw.acyclic hi ⟨_, _, _, hget, hblock, hlist, .inr ⟨rfl, rfl⟩⟩ hn
    | unwrapped hget hblock hlist =>
      subst hm
      exact .of_unwrap hw.typed hw.acyclic hi ⟨_, _, _, hget, hblock, hlist, .inl rfl⟩ hn
    | returned hget _ _ => cases hkind.symm.trans (Store.kind?_node hget)
    | lowered _ hget _ _ => cases hkind.symm.trans (Store.kind?_node hget)
    | selected hget _ => cases hkind.symm.trans (Store.kind?_node hget)
    | unary hget _ _ _ => cases hkind.symm.trans (Store.kind?_node hget)
    | binary hget _ _ _ _ => cases hkind.symm.trans (Store.kind?_node hget)
  · obtain ⟨l, before, jump, after, hjump, rfl, hrewrites⟩ := dropUnreachable_step h
    obtain ⟨-, happly'⟩ := hrewrites.changes hw hplace
    obtain ⟨rfl, -⟩ := Prod.mk.inj (happly.symm.trans happly')
    exact .of_cut hrewrites.list hjump

/-- An edit of the second phase that was applied leaves the same ways. -/
theorem Simplification.keepsWays (hw : w.Intact strict root) (hplace : place.Live w.store root)
    (hsim : sim ∈ Simplification.phaseTwo) (h : sim.propose place w = some (edit, w'))
    (happly : edit.apply (some w'.pool) w'.store = (store, none)) (ht : store.Typed strict) :
    w.store.SameWays (fun _ => False) store (fun _ => False) := by
  have hnode : (∃ r e, place.element = some r ∧ NodeStep w r e w' ∧ edit = .put place e) →
      sim ≠ .deblock → w.store.SameWays (fun _ => False) store (fun _ => False) := by
    rintro ⟨r, e, hr, hstep, rfl⟩ hne
    have hkind := mt (Simplification.kind_iff_deblock hr h).mp hne
    obtain ⟨n, x, i, rfl, hi, rfl⟩ := hstep.refilled hw hplace hr happly
    exact hstep.sameWays hw.toKept hkind hi ht
  obtain ⟨-, hgrows, -⟩ := sim.grows hw.toKept h
  cases sim with
  | deblock | dropDead => simp [Simplification.phaseTwo] at hsim
  | ifToConditional => exact hnode (lowerIf_step h) (by simp)
  | foldConstant => exact hnode (foldOperation_step h) (by simp)
  | foldConditional => exact hnode (foldConditional_step h) (by simp)
  | sequenceFusion =>
    obtain ⟨l, items, items', puts, gone, hfuses, hrewrites⟩ := fuseRuns_step h
    obtain ⟨-, happly'⟩ := hrewrites.changes hw hplace
    obtain ⟨rfl, -⟩ := Prod.mk.inj (happly.symm.trans happly')
    exact hfuses.sameWays hw.toKept hgrows hrewrites.list ht
  | completionFusion =>
    obtain ⟨l, before, statement, next, after, first, label, second, hstatement, hnext, rfl,
      hrewrites⟩ := fuseCompletion_step h
    obtain ⟨-, happly'⟩ := hrewrites.changes hw hplace
    obtain ⟨rfl, -⟩ := Prod.mk.inj (happly.symm.trans happly')
    exact sameWays_completed hw.toKept rfl hgrows hrewrites.list hstatement hnext ht

/-! ## Passes -/

/-- Applied edits of simplifications leave the same ways, where the store tells what ends a list. -/
def KeepWays (strict : Strictness) (root : Ref) (sims : List Simplification)
    (ends : Store → Ref → Prop) : Prop :=
  ∀ ⦃w w' : Workspace⦄ ⦃place : Cursor⦄ ⦃edit : Edit⦄ ⦃store : Store⦄, ∀ sim ∈ sims,
    w.Intact strict root → place.Live w.store root → sim.propose place w = some (edit, w') →
    edit.apply (some w'.pool) w'.store = (store, none) → store.Typed strict →
    w.store.SameWays (ends w.store) store (ends store)

theorem keepWays_phaseOne (strict : Strictness) (root : Ref) :
    KeepWays strict root Simplification.phaseOne Store.Jumps :=
  fun _ _ _ _ _ _ hsim hw hplace h happly _ => Simplification.spares hw hplace hsim h happly

theorem keepWays_phaseTwo (strict : Strictness) (root : Ref) :
    KeepWays strict root Simplification.phaseTwo fun _ _ => False :=
  fun _ _ _ _ _ _ hsim hw hplace h happly ht =>
    Simplification.keepsWays hw hplace hsim h happly ht

variable {ends : Store → Ref → Prop} {fuel : Nat} {memory : σ} {stats : Stats}

/-- A step of a run leaves the same ways. -/
theorem Run.Moves.sameWays {run run' : Run σ} (hkeep : KeepWays strict root sims ends)
    (h : Moves sims pass root run run') (hrun : run.Sound strict root)
    (hways : w.store.SameWays (ends w.store) run.workspace.store (ends run.workspace.store)) :
    w.store.SameWays (ends w.store) run'.workspace.store (ends run'.workspace.store) := by
  have hsound := h.sound hrun
  cases h with
  | closed _ _ | entered _ _ _ _ | left _ _ _ _ _ _ => exact hways
  | @edited task task' rest place fresh visits edit w' store stats htasks hagenda _ _ hproposes
      happly =>
    obtain ⟨hlive, -⟩ := Proposes.changes hrun (mem_agenda htasks hagenda) hproposes happly
    obtain ⟨sim, hsim, hpropose⟩ := hproposes.propose
    have hintact := hsound.intact
    rw [workspace_reschedule] at hintact ⊢
    exact hways.trans (hkeep sim hsim hrun.intact hlive hpropose happly hintact.typed)

/-- A pass that ended in order left what its run left when there was nothing left to visit. -/
theorem process_finished (hdone : (pass.process fuel w memory (some root)).report = .done stats) :
    ((Run.first w memory root).steps pass root fuel).2 = some .finished ∧
      (pass.process fuel w memory (some root)).workspace =
        ((Run.first w memory root).steps pass root fuel).1.workspace := by
  cases hbefore : (w.store.tree (some root)).fingerprint? with
  | none =>
    rw [Pass.process_unprinted hbefore] at hdone
    cases hdone
  | some before =>
    cases hfound : pass.found w root with
    | some invalid =>
      rw [Pass.process_invalid hbefore hfound] at hdone
      cases hdone
    | none =>
      rw [Pass.process_conclude hbefore hfound] at hdone ⊢
      generalize (Run.first w memory root).steps pass root fuel = final at hdone ⊢
      obtain ⟨last, ending⟩ := final
      refine ⟨?_, rfl⟩
      -- of the reports only the one of a finished run is in order
      unfold Pass.conclude at hdone
      dsimp only at hdone
      split at hdone
      · cases hdone
      · cases hdone
      · unfold Pass.reportOf at hdone
        split at hdone
        · cases hdone
        · rfl
        · unfold Pass.failure at hdone
          dsimp only at hdone
          split at hdone <;> cases hdone
        · cases hdone

/-- A pass that ended in order left the same ways, and no simplification of it proposes anything on
the tree that it left. -/
theorem process_sameWays (hrules : pass.rules = sims.map Simplification.rule)
    (hkeep : KeepWays strict root sims ends) (hw : w.Intact strict root)
    (hdone : (pass.process fuel w memory (some root)).report = .done stats) :
    w.store.SameWays (ends w.store) (pass.process fuel w memory (some root)).workspace.store
        (ends (pass.process fuel w memory (some root)).workspace.store) ∧
      Run.Quiet sims root (pass.process fuel w memory (some root)).workspace := by
  obtain ⟨hfinished, hleft⟩ := process_finished hdone
  have hstart : (Run.first w memory root).Covered strict sims root := Run.covered_start hw memory _
  rw [hleft]
  rcases Run.steps_induction hrules
    (P := fun run => run.Covered strict sims root ∧
      w.store.SameWays (ends w.store) run.workspace.store (ends run.workspace.store))
    (fun _ _ hrun h => ⟨h.covered hrun.1, h.sameWays hkeep hrun.1.sound hrun.2⟩)
    ⟨hstart, .refl _ _⟩ fuel with
    ⟨-, hnone⟩ | ⟨run, ending, ⟨hcovered, hways⟩, hends, hending⟩
  · cases hnone.symm.trans hfinished
  · rcases hends.cases hcovered.sound with ⟨htasks, hlast, -⟩ | ⟨_, _, _, _, _, _, _, hhalts⟩
    · rw [hlast]
      exact ⟨hways, fun c hc => hcovered.quiet htasks hc⟩
    · obtain ⟨error, rfl⟩ := hhalts.failed
      cases hending.symm.trans hfinished

/-! ## What the first phase leaves -/

section Quiet

variable (hw : w.Intact strict root) (hquiet : Run.Quiet Simplification.phaseOne root w)

include hw hquiet

/-- Where statements behind a jump are dropped, a jump is the last item of its list. -/
theorem jump_last {l : Ref} {before after : List (Option Ref)} {item : Option Ref}
    (hreach : w.store.Reaches root l) (hl : w.store.get l = .list (before ++ item :: after))
    (hjump : isJump w.store item = true) : after = [] := by
  obtain ⟨place, hplace, helement⟩ := hw.typed.exists_live hreach
  have hitems := listField?_of_live hw.typed hw.root_node hplace helement hl
  cases after with
  | nil => rfl
  | cons next after =>
    exact absurd ⟨.dropDead, by simp [Simplification.phaseOne], dropUnreachable_isSome hitems hjump⟩
      (hquiet place hplace)

/-- Where blocks are flattened, a block does not consist of a single statement. -/
theorem block_not_single {r block list : Ref} {item : Option Ref} (hreach : w.store.Reaches root r)
    (hr : w.store.get r = .node .blockStatement [some block])
    (hblock : w.store.get block = .node .block [some list]) :
    w.store.get list ≠ .list [item] := by
  intro hlist
  obtain ⟨place, hplace, helement⟩ := hw.typed.exists_live hreach
  refine hquiet place hplace ⟨.deblock, by simp [Simplification.phaseOne], ?_⟩
  obtain ⟨list', items, hblock', hlist', hitems⟩ := block_list hw.typed hr
  obtain ⟨-, hkids⟩ := Cell.node.inj (hblock.symm.trans hblock')
  obtain rfl : list = list' := by simpa using hkids
  obtain rfl := Cell.list.inj (hlist.symm.trans hlist')
  simp [Simplification.propose, flattenBlock, node?_of_element helement hr, hr, hitems]

/-- Where the first phase finds nothing to do, only jumps end lists. -/
theorem isJump_of_jumps {r : Ref} (hreach : w.store.Reaches root r) (hjumps : w.store.Jumps r) :
    isJump w.store (some r) = true := by
  induction hjumps with
  | jump hjump => exact hjump
  | @block r block list first rest hget hblock hlist _ ih =>
    have hrb : w.store.Holds r block := (Store.holds_single hget).mpr rfl
    have hbl : w.store.Holds block list := (Store.holds_single hblock).mpr rfl
    have hlf : w.store.Holds list first := (Store.holds_list_iff hlist).mpr List.mem_cons_self
    have hlist_reach := (hreach.tail hrb).tail hbl
    have hsplit : w.store.get list = .list ([] ++ some first :: rest) := hlist
    -- the jump is the whole block, which would have been flattened
    obtain rfl := jump_last hw hquiet hlist_reach hsplit (ih (hlist_reach.tail hlf))
    exact absurd hlist (block_not_single hw hquiet hreach hget hblock)

/-- Where the first phase finds nothing to do, nothing is behind the end of a list. -/
theorem way_jumps_iff {barred : List Kind} {a y : Ref} (ha : w.store.Reaches root a) :
    w.store.Way w.store.Jumps barred a y ↔ w.store.Way (fun _ => False) barred a y := by
  refine ⟨fun h => h.stays (fun _ => True) (fun p c _ hleads _ =>
    ⟨trivial, Store.leads_iff_holds.mpr hleads.holds, rfl⟩) trivial, fun h => ?_⟩
  refine h.stays (w.store.Reaches root) (fun p c hp hleads _ => ?_) ha
  refine ⟨hp.tail hleads.holds, ?_, rfl⟩
  cases hleads with
  | field hget hc => exact .field hget hc
  | @item items k hget hk _ =>
    refine .item hget hk fun j q hj hq hjumps => ?_
    have hpq : w.store.Holds p q := (Store.holds_list_iff hget).mpr (List.mem_of_getElem? hq)
    have hjump := isJump_of_jumps hw hquiet (hp.tail hpq) hjumps
    obtain ⟨hlt, hat⟩ := List.getElem?_eq_some_iff.mp hq
    have hsplit : items = items.take j ++ some q :: items.drop (j + 1) := by
      rw [← hat, List.getElem_cons_drop, List.take_append_drop]
    have hlast := jump_last hw hquiet hp (hsplit ▸ hget) hjump
    have := List.drop_eq_nil_iff.mp hlast
    have := (List.getElem?_eq_some_iff.mp hk).1
    omega

end Quiet

/-! ## Declarations -/

namespace Store

variable {s u : Store} {ends' : Ref → Prop} {b d : Ref}

/-- A node of the tree, and from there what belongs to it, are found on ways. -/
def Finds (s : Store) (ends : Ref → Prop) (root b d : Ref) : Prop :=
  s.Way ends [] root b ∧ s.Way ends [.functionBody] b d

/-- An element belongs to a node of the tree: it is reached from there without entering another
function body. -/
def Belongs (s : Store) (root b d : Ref) : Prop :=
  s.Reaches root b ∧
    Relation.ReflTransGen (fun p c => s.Holds p c ∧ s.kind? c ≠ some .functionBody) b d

/-- An element belongs to a node of the tree and is not cut off: on the way from the root, nothing
stands in a list behind a jump or behind a block statement that begins with one. -/
def Spares (s : Store) (root b d : Ref) : Prop := s.Finds s.Jumps root b d

theorem belongs_iff : s.Belongs root b d ↔ s.Finds (fun _ => False) root b d := by
  simp [Belongs, Finds, Way, Reaches, leads_iff_holds]

theorem SameWays.finds_iff {ends : Ref → Prop} (h : s.SameWays ends u ends') (hroot : s.Known root)
    (hb : s.IsScope b) (hd : s.IsScope d) : u.Finds ends' root b d ↔ s.Finds ends root b d :=
  and_congr (h.way [] (List.nil_subset _) root b hroot hb)
    (h.way [.functionBody] (List.Subset.refl _) b d hb.known hd)

end Store

variable {b d : Ref}

/-- Where the first phase finds nothing to do, nothing that belongs to a node is cut off. -/
theorem spares_iff_belongs (hw : w.Intact strict root)
    (hquiet : Run.Quiet Simplification.phaseOne root w) :
    w.store.Spares root b d ↔ w.store.Belongs root b d := by
  rw [Store.belongs_iff, Store.Spares, Store.Finds, Store.Finds, way_jumps_iff hw hquiet .refl]
  exact and_congr_right fun hb => way_jumps_iff hw hquiet hb.reaches

/-- After the first phase, what belongs to a scope is what was not cut off from it before. -/
theorem phaseOne_belongs (hrules : pass.rules = Simplification.phaseOne.map Simplification.rule)
    (hw : w.Intact strict root)
    (hdone : (pass.process fuel w memory (some root)).report = .done stats) :
    (∀ r, w.store.Known r →
      (pass.process fuel w memory (some root)).workspace.store.label? r = w.store.label? r) ∧
    ∀ b d, w.store.IsScope b → w.store.IsScope d →
      ((pass.process fuel w memory (some root)).workspace.store.Belongs root b d ↔
        w.store.Spares root b d) := by
  obtain ⟨hways, hquiet⟩ := process_sameWays hrules (keepWays_phaseOne strict root) hw hdone
  have hleft := (process_history hrules hw fuel memory).intact hw
  refine ⟨hways.label, fun b d hb hd => ?_⟩
  rw [← spares_iff_belongs hleft hquiet]
  exact hways.finds_iff hw.root_known hb hd

/-- The second phase changes nothing about what belongs to a scope. -/
theorem phaseTwo_belongs (hrules : pass.rules = Simplification.phaseTwo.map Simplification.rule)
    (hw : w.Intact strict root)
    (hdone : (pass.process fuel w memory (some root)).report = .done stats) :
    (∀ r, w.store.Known r →
      (pass.process fuel w memory (some root)).workspace.store.label? r = w.store.label? r) ∧
    ∀ b d, w.store.IsScope b → w.store.IsScope d →
      ((pass.process fuel w memory (some root)).workspace.store.Belongs root b d ↔
        w.store.Belongs root b d) := by
  obtain ⟨hways, -⟩ := process_sameWays hrules (keepWays_phaseTwo strict root) hw hdone
  refine ⟨hways.label, fun b d hb hd => ?_⟩
  rw [Store.belongs_iff, Store.belongs_iff]
  exact hways.finds_iff hw.root_known hb hd

/-- A function declaration stays unless it is cut off.  Let a script be valid, and consider a
function declaration and the script or a function body in a workspace of the script's session.  When
the first phase of the optimizer, or the optimizer, ends in order, then the declaration belongs to
the script or function body exactly if it did before and, on the way to it from the root, nothing
stood in a list behind a jump or behind a block statement that begins with one, and it is the same
declaration as before. -/
theorem declaration_stays_iff_spared {root : Ref} {w : Workspace} (hshaped : t.isShaped = true)
    (hvalid : t.invalid? = none) (hw : Session t root w) {b d : Ref} {name : Text}
    (hb : w.store.label? b = some .script ∨ w.store.label? b = some .functionBody)
    (hd : w.store.label? d = some (.functionDeclaration name)) :
    (∀ (σ : Type) (pass : Pass σ) (fuel : Nat) (memory : σ) (stats : Stats),
      pass.rules = Simplification.phaseOne.map Simplification.rule →
      (pass.process fuel w memory (some root)).report = .done stats →
      let left := (pass.process fuel w memory (some root)).workspace.store
      (left.Belongs root b d ↔ w.store.Spares root b d) ∧ left.label? d = w.store.label? d) ∧
    ∀ (o : Options) (fuel : Nat) (stats : Stats), (o.optimize fuel w (some root)).2 = .done stats →
      let left := (o.optimize fuel w (some root)).1.store
      (left.Belongs root b d ↔ w.store.Spares root b d) ∧ left.label? d = w.store.label? d := by
  have hwellFormed : t.isWellFormed .schema = true :=
    (isWellFormed_iff rfl).mpr ⟨hshaped, nofun, hvalid⟩
  have hintact : w.Intact .schema root := hw.intact hwellFormed
  have hbscope : w.store.IsScope b := by
    rcases hb with hb | hb <;> exact ⟨_, by rw [Store.kind?, hb]; rfl, rfl⟩
  have hdscope : w.store.IsScope d := ⟨_, by rw [Store.kind?, hd]; rfl, rfl⟩
  refine ⟨fun σ pass fuel memory stats hrules hdone => ?_, fun o fuel stats hdone => ?_⟩
  · obtain ⟨hlabel, hbelongs⟩ := phaseOne_belongs hrules hintact hdone
    exact ⟨hbelongs b d hbscope hdscope, hlabel d hdscope.known⟩
  · obtain ⟨one, two, between, left, hphases⟩ := exists_optimizes hdone
    have hbetween := (hphases.history hintact).1.intact hintact
    obtain ⟨hlabel, hbelongs⟩ := phaseOne_belongs o.rules_phaseOne hintact (by rw [hphases.first])
    obtain ⟨hlabel', hbelongs'⟩ := phaseTwo_belongs o.rules_phaseTwo hbetween
      (by rw [hphases.second])
    rw [hphases.first] at hlabel hbelongs
    rw [hphases.second] at hlabel' hbelongs'
    have hb' := hbscope.of_kind (Store.kind?_of_label (hlabel b hbscope.known))
    have hd' := hdscope.of_kind (Store.kind?_of_label (hlabel d hdscope.known))
    rw [hphases.eq]
    exact ⟨(hbelongs' b d hb' hd').trans (hbelongs b d hbscope hdscope),
      (hlabel' d hd'.known).trans (hlabel d hdscope.known)⟩

/-- The script of `{ function f() {} } return;`. -/
def blockDeclaration : Tree :=
  .node .script [.list [
    .node .blockStatement [.node .block [.list [
      .node (.functionDeclaration "f") [.list [], .node .functionBody [.list []]]]]],
    .node .returnStatement [.missing]]]

/-- The declaration in the block stays. -/
theorem declaration_stays_iff_spared_blockDeclaration :
    let w := Workspace.ofStore (Store.empty.plant blockDeclaration).2
    w.store.label? (.cell 3) = some (.functionDeclaration "f") ∧
      w.store.Spares (.cell 9) (.cell 9) (.cell 3) ∧
      ((({} : Options).phaseOne.process 100 w () (some (.cell 9))).workspace.store.Belongs (.cell 9)
        (.cell 9) (.cell 3)) ∧
      (({} : Options).optimize 100 w (some (.cell 9))).1.store.Belongs (.cell 9) (.cell 9)
        (.cell 3) := by
  intro w
  have hw : Session blockDeclaration (.cell 9) w := .planted rfl
  have hphase :
      (({} : Options).phaseOne.process 100 w () (some (.cell 9))).report.edits? = some 1 := by
    decide +kernel
  have hoptimized : (({} : Options).optimize 100 w (some (.cell 9))).2.edits? = some 1 := by
    decide +kernel
  obtain ⟨one, hone, -⟩ := Report.done_of_edits? hphase
  obtain ⟨stats, hstats, -⟩ := Report.done_of_edits? hoptimized
  have hspares : w.store.Spares (.cell 9) (.cell 9) (.cell 3) := by
    refine ⟨.refl, ?_⟩
    refine .head (b := .cell 8) ⟨.field rfl (by decide), by decide⟩ ?_
    refine .head (b := .cell 6) ⟨.item (k := 0) rfl rfl (by simp), by decide⟩ ?_
    refine .head (b := .cell 5) ⟨.field rfl (by decide), by decide⟩ ?_
    refine .head (b := .cell 4) ⟨.field rfl (by decide), by decide⟩ ?_
    exact .head (b := .cell 3) ⟨.item (k := 0) rfl rfl (by simp), by decide⟩ .refl
  have hscript : w.store.label? (.cell 9) = some .script := rfl
  have hdeclaration : w.store.label? (.cell 3) = some (.functionDeclaration "f") := rfl
  obtain ⟨hfirst, hboth⟩ := declaration_stays_iff_spared (by decide) (by decide +kernel) hw
    (.inl hscript) hdeclaration
  exact ⟨hdeclaration, hspares, (hfirst _ _ _ () _ rfl hone).1.mpr hspares,
    (hboth {} _ _ hstats).1.mpr hspares⟩

/-- The script of `return; function f() {}`. -/
def hoistedDeclaration : Tree :=
  .node .script [.list [.node .returnStatement [.missing],
    .node (.functionDeclaration "f") [.list [], .node .functionBody [.list []]]]]

/-- A declaration behind a return is hoisted, and it is dropped nevertheless. -/
theorem hoisted_declaration_dropped :
    let w := Workspace.ofStore (Store.empty.plant hoistedDeclaration).2
    let optimized := ({} : Options).optimize 100 w (some (.cell 6))
    (hoistedDeclaration.isShaped = true ∧ hoistedDeclaration.hasOperators = true ∧
        hoistedDeclaration.invalid? = none ∧ hoistedDeclaration.kind? = some .script ∧
        Session hoistedDeclaration (.cell 6) w) ∧
      (∃ stats, optimized.2 = .done stats) ∧
      w.store.label? (.cell 6) = some .script ∧
      w.store.label? (.cell 4) = some (.functionDeclaration "f") ∧
      w.store.Belongs (.cell 6) (.cell 6) (.cell 4) ∧
      ¬ optimized.1.store.Belongs (.cell 6) (.cell 6) (.cell 4) := by
  intro w optimized
  have hedits : optimized.2.edits? = some 1 := by decide +kernel
  obtain ⟨stats, hdone, -⟩ := Report.done_of_edits? hedits
  refine ⟨⟨by decide, by decide, by decide +kernel, rfl, .planted rfl⟩, ⟨stats, hdone⟩, rfl, rfl,
    ⟨.refl, ?_⟩, fun hbelongs => ?_⟩
  · have hlist : w.store.Holds (.cell 6) (.cell 5) := by
      unfold Store.Holds
      decide
    have hitem : w.store.Holds (.cell 5) (.cell 4) := by
      unfold Store.Holds
      decide
    exact .head ⟨hlist, by decide⟩ (.head ⟨hitem, by decide⟩ .refl)
  · -- the list of the script holds the return and nothing else
    have hscript : optimized.1.store.below (.cell 6) = [some (.cell 5)] := by decide +kernel
    have hlist : optimized.1.store.below (.cell 5) = [some (.cell 0)] := by decide +kernel
    have hreturn : optimized.1.store.below (.cell 0) = [none] := by decide +kernel
    rcases Relation.ReflTransGen.cases_head hbelongs.2 with hself | ⟨l, ⟨hl, -⟩, hrest⟩
    · cases hself
    obtain rfl : l = .cell 5 := by simpa [Store.Holds, hscript] using hl
    rcases Relation.ReflTransGen.cases_head hrest with hself | ⟨r, ⟨hr, -⟩, hrest⟩
    · cases hself
    obtain rfl : r = .cell 0 := by simpa [Store.Holds, hlist] using hr
    rcases Relation.ReflTransGen.cases_head hrest with hself | ⟨x, ⟨hx, -⟩, -⟩
    · cases hself
    · simp [Store.Holds, hreturn] at hx

end ScriptSimplifier
