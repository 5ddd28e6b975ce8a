import ScriptSimplifier.Optimizer
import ScriptSimplifier.Proofs.Pass.Runs
import ScriptSimplifier.Proofs.Store.Planting

/-!
# Sessions

A session is the history of one tree in a workspace of its own: the tree is planted and the pool is
set up, and then passes of the catalog run on the tree one after the other, with any options, of any
length and with any outcome, and the pool may be asked for fragments.  The tree of a session stays
intact (`Session.intact`), so every pass reads the tree, runs, and reports (`process_cases`).
-/

namespace ScriptSimplifier

open Workspace

/-- The workspaces that a tree with a root goes through. -/
inductive Session (t : Tree) (root : Ref) : Workspace → Prop
  | planted {s : Store} : Store.empty.plant t = (some root, s) → Session t root (.ofStore s)
  | asked {w : Workspace} (v : Value) : Session t root w → Session t root (w.constant v).2
  | passed {σ : Type} {w : Workspace} {pass : Pass σ} {sims : List Simplification}
      (fuel : Nat) (memory : σ) : pass.rules = sims.map Simplification.rule → Session t root w →
      Session t root (pass.process fuel w memory (some root)).workspace

variable {strict : Strictness} {root : Ref} {w : Workspace} {t : Tree}

/-! ## Planted trees -/

/-- A planted tree is intact, and it is the tree that was planted. -/
theorem intact_planted (ht : t.isWellFormed strict = true) {s : Store}
    (hs : Store.empty.plant t = (some root, s)) :
    (ofStore s).Intact strict root ∧ (ofStore s).store.tree (some root) = t := by
  simp only [Tree.isWellFormed, Bool.and_eq_true] at ht
  have hplants := Store.plants_plant ht.2 (Store.orderly_empty : Store.empty.Orderly strict)
  rw [hs] at hplants
  obtain ⟨hkept, hext, hconstant⟩ := kept_ofStore hplants.orderly
  have hroot : s.KnownAt (some root) := hplants.known _ List.mem_cons_self
  have htree : s.tree (some root) = t := by simpa using hplants.trees
  have hshared : ∀ r, s.Known r → (ofStore s).shares r = Store.isFixed r := by
    intro r hr
    rw [Bool.eq_iff_iff, shares, Store.isFixed, Bool.or_eq_true, Bool.or_eq_true, hconstant r hr]
    simp
  have hcensus : (ofStore s).census (some root) = s.census Store.isFixed (some root) :=
    hext.tally hplants.orderly.acyclic hplants.orderly.closed hkept.acyclic hshared
      (fun _ _ => rfl) hroot
  refine ⟨⟨hkept, hext.known (Store.knownAt_some.mp hroot), ?_, ?_⟩, ?_⟩
  · -- the tree has a kind, so its root is a node
    cases hget : s.get root with
    | node label kids =>
      rw [Store.isList, hext.get root (Store.knownAt_some.mp hroot), hget]
    | list items =>
      rw [hplants.orderly.acyclic.tree_list hget] at htree
      rw [← htree] at ht
      simp [Tree.kind?] at ht
  · rw [hcensus]
    have hle := hplants.census
    rw [Store.censusAll_cons, Store.censusAll_nil, add_zero] at hle
    exact Multiset.nodup_of_le hle (Store.nodup_since _ _)
  · rw [hext.tree hplants.orderly.acyclic hplants.orderly.closed hkept.acyclic hroot, htree]

/-! ## Passes -/

theorem Workspace.Intact.wellFormed (hw : w.Intact strict root) :
    (w.store.tree (some root)).isWellFormed strict = true :=
  hw.typed.wellFormed hw.acyclic hw.root_node

theorem Workspace.Intact.fingerprint (hw : w.Intact strict root)
    (hoperators : strict.operators = true) :
    ∃ text, (w.store.tree (some root)).fingerprint? = some text :=
  Option.isSome_iff_exists.mp
    (fingerprint?_isSome (isWellFormed_loose hoperators hw.wellFormed))

variable {σ : Type} {pass : Pass σ} {sims : List Simplification}

/-- A pass over an intact tree fails because it finds the tree invalid, or it reports how its run
ended. -/
theorem process_cases (hrules : pass.rules = sims.map Simplification.rule)
    (hoperators : strict.operators = true) (hw : w.Intact strict root) (memory : σ) :
    (pass.validates = true ∧ ∃ invalid before,
        (w.store.tree (some root)).invalid? = some invalid ∧
        ∀ fuel, pass.process fuel w memory (some root) =
          ⟨w, memory, .failed { before } (.invalidBefore pass.name invalid)⟩) ∨
      (pass.validates = true → (w.store.tree (some root)).invalid? = none) ∧
      ∃ before, ∀ fuel last ending, (Run.start w memory root before).steps pass root fuel =
          (last, ending) →
        ∃ after, (last.workspace.store.tree (some root)).fingerprint? = some after ∧
          pass.process fuel w memory (some root) =
            ⟨last.workspace, last.memory, pass.reportOf { last.stats with after } ending⟩ := by
  obtain ⟨before, hbefore⟩ := hw.fingerprint hoperators
  by_cases hvalid : (if pass.validates then (w.store.tree (some root)).invalid? else none) = none
  · refine .inr ⟨fun hvalidates => by simpa [hvalidates] using hvalid, before, ?_⟩
    intro fuel last ending hlast
    have hhistory := (Run.sound_start hw memory before).history hrules fuel
    rw [hlast] at hhistory
    obtain ⟨after, hafter⟩ := (hhistory.intact hw).fingerprint hoperators
    refine ⟨after, hafter, ?_⟩
    simp only [Pass.process, hbefore, hvalid, hlast]
    cases ending with
    | none => simp only [hafter]
    | some ending => cases ending <;> simp only [hafter, Pass.reportOf]
  · obtain ⟨invalid, hinvalid⟩ := Option.ne_none_iff_exists'.mp hvalid
    cases hvalidates : pass.validates with
    | false => simp [hvalidates] at hinvalid
    | true =>
      refine .inl ⟨rfl, invalid, before, by simpa [hvalidates] using hinvalid, fun fuel => ?_⟩
      simp only [Pass.process, hbefore, hinvalid]

/-- A pass leaves what it was given, or what its run leaves. -/
theorem process_workspace (fuel : Nat) (w : Workspace) (memory : σ) (root : Ref) :
    (pass.process fuel w memory (some root)).workspace = w ∨
      ∃ before, (pass.process fuel w memory (some root)).workspace =
        ((Run.start w memory root before).steps pass root fuel).1.workspace := by
  rw [Pass.process]
  dsimp only
  split
  · exact .inl rfl
  · exact .inl rfl
  · exact .inr ⟨_, rfl⟩

/-- A pass is part of a history. -/
theorem process_history (hrules : pass.rules = sims.map Simplification.rule)
    (hw : w.Intact strict root) (fuel : Nat) (memory : σ) :
    History strict root w (pass.process fuel w memory (some root)).workspace := by
  rcases process_workspace fuel w memory root with hsame | ⟨before, hrun⟩
  · rw [hsame]
    exact .refl
  · rw [hrun]
    exact (Run.sound_start hw memory before).history hrules fuel

/-- A session is the history of a planted tree. -/
theorem Session.history (ht : t.isWellFormed strict = true) (h : Session t root w) :
    ∃ s, Store.empty.plant t = (some root, s) ∧ History strict root (ofStore s) w := by
  induction h with
  | planted hs => exact ⟨_, hs, .refl⟩
  | asked v _ ih =>
    obtain ⟨s, hs, hhistory⟩ := ih
    have hintact := hhistory.intact (intact_planted ht hs).1
    obtain ⟨hgrows, hkept, _⟩ := hintact.toKept.constant v
    exact ⟨s, hs, hhistory.tail (.grown hgrows hkept)⟩
  | passed fuel memory hrules _ ih =>
    obtain ⟨s, hs, hhistory⟩ := ih
    have hintact := hhistory.intact (intact_planted ht hs).1
    exact ⟨s, hs, hhistory.trans (process_history hrules hintact fuel memory)⟩

/-- The tree of a session is intact. -/
theorem Session.intact (ht : t.isWellFormed strict = true) (h : Session t root w) :
    w.Intact strict root := by
  obtain ⟨s, hs, hhistory⟩ := h.history ht
  exact hhistory.intact (intact_planted ht hs).1

theorem kind?_tree {s : Store} (hs : s.Acyclic) (r : Ref) :
    (s.tree (some r)).kind? = s.kind? r := by
  cases hr : s.get r with
  | node label kids => simp [hs.tree_node hr, Tree.kind?, Store.kind?_node hr]
  | list items => simp [hs.tree_list hr, Tree.kind?, Store.kind?_list hr]

/-- The root of a session keeps its kind. -/
theorem Session.kind (ht : t.isWellFormed strict = true) (h : Session t root w) :
    w.store.kind? root = t.kind? := by
  obtain ⟨s, hs, hhistory⟩ := h.history ht
  obtain ⟨hintact, htree⟩ := intact_planted ht hs
  rw [hhistory.kind hintact, ← htree, kind?_tree hintact.acyclic]

/-! ## The optimizer -/

theorem Session.runPasses (hw : Session t root w) {passes : List (Pass Unit)}
    (hpasses : ∀ pass ∈ passes, ∃ sims : List Simplification,
      pass.rules = sims.map Simplification.rule) (fuel : Nat) (total : Stats) :
    Session t root (runPasses fuel (some root) passes total w).1 := by
  induction passes generalizing w total with
  | nil => exact hw
  | cons pass rest ih =>
    obtain ⟨⟨sims, hrules⟩, hrest⟩ := List.forall_mem_cons.mp hpasses
    have hpass : Session t root (pass.process fuel w () (some root)).workspace :=
      .passed fuel () hrules hw
    rw [ScriptSimplifier.runPasses]
    split
    · exact ih hpass hrest _
    · exact hpass

/-- What the optimizer does is part of a session. -/
theorem Session.optimize (hw : Session t root w) (o : Options) (fuel : Nat) :
    Session t root (o.optimize fuel w (some root)).1 := by
  refine hw.runPasses (fun pass hpass => ?_) fuel {}
  obtain ⟨⟨phase, i⟩, _, rfl⟩ := List.mem_map.mp hpass
  exact ⟨phase, rfl⟩

end ScriptSimplifier
