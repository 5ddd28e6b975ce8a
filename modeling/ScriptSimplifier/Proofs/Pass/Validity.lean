import ScriptSimplifier.Proofs.Pass.Termination

/-!
# Validity

A valid tree with an operator in every unary operation stays valid under the catalog, whatever the
order of the rules, and the only error of a pass without limit is that the root itself is to be
replaced.  A script is never replaced, so a pass over a script ends in order.
-/

namespace ScriptSimplifier

open Workspace

variable {σ : Type} {pass : Pass σ} {sims : List Simplification} {root : Ref} {w : Workspace}
  {t : Tree}

theorem Workspace.Intact.valid (hw : w.Intact .full root) :
    (w.store.tree (some root)).invalid? = none :=
  ((isWellFormed_iff rfl).mp hw.wellFormed).2.2

/-- What happens to a valid tree when an edit is applied that was proposed at one of its places: it
is valid afterwards, or the edit would replace the root. -/
theorem edit_keeps_valid (hw : w.Intact .full root) {place : Cursor}
    (hplace : place.Within w.store root) {simplification : Simplification} {edit : Edit}
    {w' : Workspace} (h : simplification.propose place w = some (edit, w')) :
    (∃ store, edit.apply (some w'.pool) w'.store = (store, none) ∧
        (store.tree (some root)).invalid? = none) ∨
      ∃ shown kind, place = .root (some root) ∧ w.store.kind? root = some kind ∧
        kind.isReplaceable = true ∧
        edit.apply (some w'.pool) w'.store = (w'.store, some (.refused (.noParent shown))) := by
  obtain ⟨⟨r, hr, _⟩, _, _⟩ := simplification.grows hw.toKept h
  have hlive := hplace.live hw.typed (by simp [hr])
  cases simplification.outcome hw hlive h with
  | empty hstrict _ _ _ => simp [Strictness.full] at hstrict
  | noParent hroot hkind hreplaceable _ _ happly =>
    exact .inr ⟨_, _, hroot, hkind, hreplaceable, happly⟩
  | changed hchanges happly => exact .inl ⟨_, happly, (hchanges.intact hw).valid⟩

/-- The ways in which a pass over a valid tree may report. -/
inductive Reports (pass : Pass σ) (sims : List Simplification) (root : Ref) (w : Workspace) :
    Report → Prop
  | done (stats : Stats) : Reports pass sims root w (.done stats)
  | unfinished (stats : Stats) : Reports pass sims root w (.unfinished stats)
  | limited {stats : Stats} {n : Nat} {rule shown : Text} : pass.limit ≠ none →
      Reports pass sims root w (pass.failure stats (.limit n rule shown))
  | noParent {stats : Stats} {rule shown : Text} {kind : Kind} {sim : Simplification}
      {before : Workspace} {edit : Edit} : w.store.kind? root = some kind →
      kind.isReplaceable = true → sim ∈ sims →
      before.store.tree (some root) = w.store.tree (some root) →
      sim.propose (.root (some root)) before = some (edit, w) →
      Reports pass sims root w (pass.failure stats (.refused rule (.noParent shown)))

theorem Run.Halts.reports (hw : w.Intact .full root) {sim : Simplification} (hsim : sim ∈ sims)
    {place : Cursor} {edit : Edit} {w' left : Workspace} {ending : Ending}
    (hpropose : sim.propose place w = some (edit, w'))
    (h : Run.Halts .full pass root w place edit w' left ending) (stats : Stats) :
    Reports pass sims root left (pass.reportOf stats (some ending)) := by
  obtain ⟨_, hgrows, hkept⟩ := sim.grows hw.toKept hpropose
  cases h with
  | limited hlimit => exact .limited hlimit
  | empty hstrict => simp [Strictness.full] at hstrict
  | noParent hroot hkind hreplaceable =>
    subst hroot
    have htree := hgrows.store.tree hw.acyclic hw.closed hkept.acyclic
      (Store.knownAt_some.mpr hw.root_known)
    have hkind' := (hgrows.store.kind? hw.root_known).trans hkind
    exact .noParent hkind' hreplaceable hsim htree.symm hpropose
  | invalid hchanges _ hinvalid => simp [(hchanges.intact hw).valid] at hinvalid

/-- A pass over a valid tree reports in one of these ways. -/
theorem process_reports (hrules : pass.rules = sims.map Simplification.rule)
    (hw : w.Intact .full root) (memory : σ) (fuel : Nat) :
    Reports pass sims root (pass.process fuel w memory (some root)).workspace
      (pass.process fuel w memory (some root)).report := by
  rcases process_cases hrules rfl hw memory with
    ⟨_, invalid, _, hinvalid, _⟩ | ⟨_, before, hprocess⟩
  · simp [hw.valid] at hinvalid
  · obtain ⟨after, _, heq⟩ := hprocess fuel _ _ rfl
    rw [heq]
    rcases Run.steps_induction hrules (fun _ _ hrun h => Run.Moves.sound h hrun)
      (Run.sound_start hw memory before) fuel with ⟨_, hnone⟩ | ⟨run, ending, hrun, hends, hsome⟩
    · rw [hnone]
      exact .unfinished _
    · rw [hsome]
      rcases hends.cases hrun with
        ⟨_, _, rfl⟩ | ⟨sim, hsim, place, edit, w', hlive, hpropose, hhalts⟩
      · exact .done _
      · exact hhalts.reports hrun.intact hsim hpropose _

/-- A pass without limit over a script that ended, ended in order. -/
theorem Reports.done_of_script {report : Report} (h : Reports pass sims root w report)
    (hkind : w.store.kind? root = some .script) (hlimit : pass.limit = none)
    (hended : (∃ stats, report = .done stats) ∨ (∃ stats error, report = .failed stats error) ∨
      pass.raises = true ∧ ∃ message, report = .fault (.raised message)) :
    ∃ stats, report = .done stats := by
  cases h with
  | done stats => exact ⟨stats, rfl⟩
  | unfinished stats => simp at hended
  | limited hlimited => exact absurd hlimit hlimited
  | noParent hkind' hreplaceable _ _ _ =>
    rw [← Option.some.inj (hkind.symm.trans hkind')] at hreplaceable
    simp [Kind.isReplaceable] at hreplaceable

/-- The catalog keeps trees valid and does not fail.  Let a tree be valid, with an operator in every
unary operation.  In every workspace of its session, an edit that a simplification proposes at a
place of the tree is applied as a whole and leaves a valid tree, or it is refused because it would
replace the root.  After any number of steps of any pass of simplifications the tree is valid, and
the pass reports no error but that the limit was reached, or that a root of a replaceable kind was
to be replaced.  A pass without limit over a script ends in order. -/
theorem catalog_keeps_valid (hshaped : t.isShaped = true) (hoperators : t.hasOperators = true)
    (hvalid : t.invalid? = none) (hw : Session t root w) :
    (∀ (simplification : Simplification) (place : Cursor) (edit : Edit) (w' : Workspace),
      place.Within w.store root → simplification.propose place w = some (edit, w') →
      (∃ store, edit.apply (some w'.pool) w'.store = (store, none) ∧
        (store.tree (some root)).invalid? = none) ∨
      ∃ shown kind, place = .root (some root) ∧ w.store.kind? root = some kind ∧
        kind.isReplaceable = true ∧
        edit.apply (some w'.pool) w'.store = (w'.store, some (.refused (.noParent shown)))) ∧
    ∀ {σ : Type} (pass : Pass σ) (sims : List Simplification) (memory : σ),
      pass.rules = sims.map Simplification.rule →
      (∀ fuel,
        ((pass.process fuel w memory (some root)).workspace.store.tree (some root)).invalid? =
          none ∧
        Reports pass sims root (pass.process fuel w memory (some root)).workspace
          (pass.process fuel w memory (some root)).report) ∧
      (t.kind? = some .script → pass.limit = none →
        ∃ n, ∀ fuel, n ≤ fuel → ∃ stats,
          (pass.process fuel w memory (some root)).report = .done stats) := by
  have hwellFormed : t.isWellFormed .full = true :=
    (isWellFormed_iff rfl).mpr ⟨hshaped, fun _ => hoperators, hvalid⟩
  have hintact := hw.intact hwellFormed
  refine ⟨fun _ _ _ _ hplace hpropose => edit_keeps_valid hintact hplace hpropose, ?_⟩
  intro σ pass sims memory hrules
  have hhistory := fun fuel => process_history hrules hintact fuel memory
  have hreports := process_reports hrules hintact memory
  refine ⟨fun fuel => ⟨((hhistory fuel).intact hintact).valid, hreports fuel⟩, ?_⟩
  intro hscript hlimit
  obtain ⟨n, processed, hprocessed, hended⟩ := process_ends hrules rfl hintact memory
  have hkind : processed.workspace.store.kind? root = some .script := by
    rw [← hprocessed n (Nat.le_refl n), (hhistory n).kind hintact, hw.kind hwellFormed, hscript]
  have hreport := hreports n
  rw [hprocessed n (Nat.le_refl n)] at hreport
  refine ⟨n, fun fuel hfuel => ?_⟩
  rw [hprocessed fuel hfuel]
  exact hreport.done_of_script hkind hlimit hended

/-- A script with a block that holds a return with a statement behind it. -/
def returnScript : Tree :=
  .node .script [.list [.node .blockStatement [.node .block [.list
    [.node .returnStatement [.missing],
      .node .expressionStatement [.node (.identifierExpression "a") []]]]]]]

theorem catalog_keeps_valid_returnScript :
    returnScript.isShaped = true ∧ returnScript.hasOperators = true ∧
      returnScript.invalid? = none ∧
      Session returnScript (.cell 7) (.ofStore (Store.empty.plant returnScript).2) ∧
      ∃ n, ∀ fuel, n ≤ fuel → ∃ stats,
        ((({} : Options).pass "all" Simplification.all).process fuel
          (.ofStore (Store.empty.plant returnScript).2) () (some (.cell 7))).report =
            .done stats := by
  have hshaped : returnScript.isShaped = true := by decide
  have hoperators : returnScript.hasOperators = true := by decide
  have hvalid : returnScript.invalid? = none := by decide +kernel
  have hw : Session returnScript (.cell 7) (.ofStore (Store.empty.plant returnScript).2) :=
    .planted rfl
  have hruns := (catalog_keeps_valid hshaped hoperators hvalid hw).2
    (({} : Options).pass "all" Simplification.all) Simplification.all () rfl
  exact ⟨hshaped, hoperators, hvalid, hw, hruns.2 rfl rfl⟩

end ScriptSimplifier
