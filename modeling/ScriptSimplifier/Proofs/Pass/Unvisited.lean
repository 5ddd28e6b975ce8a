import ScriptSimplifier.Proofs.Pass.Coverage
import ScriptSimplifier.Proofs.Rule.Locality

/-!
# Places that a rule still wants to change

At every moment of a run, each place where a rule would propose something is covered by the agenda,
together with all places above it.  An edit changes one element; a rule may newly fire at the owner
of that element and below, which is walked again, and above, where the line was covered already.
Everywhere else the rules see what they saw before.
-/

namespace ScriptSimplifier

open Workspace

/-- A rule would propose something at a place. -/
def Fires (sims : List Simplification) (w : Workspace) (c : Cursor) : Prop :=
  ∃ sim ∈ sims, (sim.propose c w).isSome = true

variable {strict : Strictness} {root : Ref} {w w' : Workspace} {sims : List Simplification}

theorem Fires.own (hw : w.Kept strict) {c : Cursor} (h : Fires sims w c) :
    ∃ r, c.element = some r ∧ w.shares r = false := by
  obtain ⟨sim, _, hsome⟩ := h
  obtain ⟨p, hp⟩ := Option.isSome_iff_exists.mp hsome
  exact (sim.grows hw hp).1

/-! ## Live places before and after an edit -/

namespace Cursor

variable {s : Store} {x : Ref} {kids : List (Option Ref)}

theorem Live.reaches_above {a c : Cursor} (hc : c.Live s root) (h : a.Above c) {x y : Ref}
    (hx : a.element = some x) (hy : c.element = some y) : s.Reaches x y := by
  induction c generalizing y with
  | root e =>
    obtain rfl : a = .root e := h
    obtain rfl := Option.some.inj (hx.symm.trans hy)
    exact .refl
  | step parent key e ih =>
    rcases h with rfl | h
    · obtain rfl := Option.some.inj (hx.symm.trans hy)
      exact .refl
    · obtain ⟨hparent, p, y', hp, hy', hholds⟩ := hc
      obtain rfl : y' = y := Option.some.inj (hy'.symm.trans hy)
      exact (ih hparent h hp).tail hholds.holds

/-- The way to an element does not pass it. -/
theorem Live.not_passes (hs : s.Acyclic) {parent : Cursor} {key : Key}
    (hc : (Cursor.step parent key (some x)).Live s root) : ¬ parent.Passes (some x) := by
  intro hpasses
  obtain ⟨hparent, p, x', hp, hx', hholds⟩ := hc
  obtain rfl := Option.some.inj hx'
  obtain ⟨a, habove, ha⟩ := hpasses.above
  exact hs.not_reaches hholds.holds (hparent.reaches_above habove ha hp)

theorem holdsAt_refill {r y : Ref} {key : Key} (hr : r ≠ x) :
    (s.refill x kids).HoldsAt r key y ↔ s.HoldsAt r key y := by
  simp only [Store.HoldsAt, Store.places, Store.keys, Store.below, Store.get_refill_ne kids hr]

/-- A place is live before and after an element changes, if the way to it does not pass that
element. -/
theorem live_refill_iff {c : Cursor}
    (h : ∀ parent, c.parent? = some parent → ¬ parent.Passes (some x)) :
    c.Live (s.refill x kids) root ↔ c.Live s root := by
  induction c with
  | root e => rfl
  | step parent key e ih =>
    have hparent := h parent rfl
    have hup : ∀ p, parent.parent? = some p → ¬ p.Passes (some x) := by
      intro p hp hpasses
      cases parent with
      | root e => simp [parent?] at hp
      | step q key' e' =>
        obtain rfl := Option.some.inj hp
        exact hparent (.inr hpasses)
    have hne : ∀ r, parent.element = some r → r ≠ x := by
      rintro r hr rfl
      exact hparent (hr ▸ parent.passes_element)
    refine and_congr (ih hup) (exists_congr fun r => exists_congr fun y => ?_)
    refine and_congr_right fun hr => and_congr_right fun _ => ?_
    exact holdsAt_refill (hne r hr)

/-- A place that is live in a larger store was live before. -/
theorem Live.of_extends {t : Store} (h : s.Extends t) (hs : s.Closed) (hroot : s.Known root)
    {c : Cursor} (hc : c.Live t root) :
    c.Live s root ∧ ∀ r, c.element = some r → s.Known r := by
  induction c with
  | root e =>
    refine ⟨hc, fun r hr => ?_⟩
    obtain rfl : root = r := Option.some.inj ((show e = some root from hc).symm.trans hr)
    exact hroot
  | step parent key e ih =>
    obtain ⟨hparent, r, y, hr, rfl, hholds⟩ := hc
    obtain ⟨hparent', hknown⟩ := ih hparent
    have hholds' : s.HoldsAt r key y := by
      rw [Store.HoldsAt, Store.places, Store.keys, Store.below, h.get r (hknown r hr)] at hholds
      exact hholds
    refine ⟨⟨hparent', r, y, hr, rfl, hholds'⟩, fun y' hy' => ?_⟩
    obtain rfl := Option.some.inj hy'
    exact hs _ _ hholds'.holds

/-- From a live place there is a way to everything below it. -/
theorem Live.extend (ht : s.Typed strict) {c : Cursor} (hc : c.Live s root) {r y : Ref}
    (hr : c.element = some r) (h : s.Reaches r y) :
    ∃ d, c.Above d ∧ d.Live s root ∧ d.element = some y := by
  induction h with
  | refl => exact ⟨c, c.above_refl, hc, hr⟩
  | tail _ hstep ih =>
    obtain ⟨d, habove, hd, hp⟩ := ih
    obtain ⟨key, hholds⟩ := ht.shaped.holdsAt_of_holds hstep
    exact ⟨.step d key (some _), .inr habove, ⟨hd, _, _, hp, rfl, hholds⟩, rfl⟩

end Cursor

/-! ## The owner of what an edit changes -/

/-- The node that owns the changed element, and where it stands: above the place where the edit was
proposed. -/
structure Owned (s : Store) (root : Ref) (place holder owner : Cursor) : Prop where
  live : owner.Live s root
  retraced : ∀ t : Store, (∀ r, s.Known r → t.isList r = s.isList r) →
    Run.retraced t holder = owner
  holder : holder = owner ∨ ∃ key e, holder = .step owner key e
  place : ∃ parent key e, place = .step parent key e ∧ owner.Above parent

theorem retraced_node {t : Store} {c : Cursor} {r : Ref} (hc : c.element = some r)
    (hr : t.isList r = false) : Run.retraced t c = c := by
  cases c with
  | root e => rfl
  | step parent key e =>
    obtain rfl : e = some r := hc
    simp [Run.retraced, hr]

theorem Changes.owned {place holder : Cursor} {edit : Edit} {x : Ref} {kids : List (Option Ref)}
    (h : Changes root w place edit w' holder x kids) (hw : w.Intact strict root) :
    ∃ owner, Owned w.store root place holder owner := by
  have hknown := hw.known_of_reaches hw.root_known (h.live.reaches h.element)
  cases hlist : w.store.isList x with
  | false =>
    have hplace : ∃ parent key e, place = .step parent key e ∧ holder.Above parent := by
      rcases h.place with ⟨_, hlist'⟩ | ⟨key, e, hplace⟩
      · simp [hlist] at hlist'
      · exact ⟨holder, key, e, hplace, holder.above_refl⟩
    exact ⟨holder, h.live, fun t ht => retraced_node h.element (by rw [ht x hknown, hlist]),
      .inl rfl, hplace⟩
  | true =>
    obtain ⟨owner, name, o, rfl, howner, ho, hnode, _⟩ :=
      h.live.list_parent hw.typed hw.root_node h.element hlist
    refine ⟨owner, howner, fun t ht => ?_, .inr ⟨_, _, rfl⟩, ?_⟩
    · have hoknown := hw.known_of_reaches hw.root_known (howner.reaches ho)
      rw [Run.retraced, if_pos (by simp [ht x hknown, hlist])]
      exact retraced_node ho (by rw [ht o hoknown, hnode])
    · rcases h.place with ⟨rfl, _⟩ | ⟨key, e, rfl⟩
      · exact ⟨owner, _, _, rfl, owner.above_refl⟩
      · exact ⟨_, key, e, rfl, .inr owner.above_refl⟩

theorem Owned.above_place {s : Store} {place holder owner : Cursor}
    (h : Owned s root place holder owner) : owner.Above place := by
  obtain ⟨parent, key, e, rfl, habove⟩ := h.place
  exact .inr habove

theorem Owned.above_holder {s : Store} {place holder owner : Cursor}
    (h : Owned s root place holder owner) : owner.Above holder := by
  rcases h.holder with rfl | ⟨key, e, rfl⟩
  · exact holder.above_refl
  · exact .inr owner.above_refl

section Changes

variable {place holder owner : Cursor} {edit : Edit} {x : Ref} {kids : List (Option Ref)}

/-- The element that changed stays where it was. -/
theorem Changes.holder_live (h : Changes root w place edit w' holder x kids)
    (hw : w.Intact strict root) : holder.Live (w'.refill x kids).store root := by
  have hgrows := (h.alters.suits hw.toKept).grows
  have hlive := h.live.extends hgrows.store hw.closed hw.root_known
  refine (Cursor.live_refill_iff fun parent hparent => ?_).mpr hlive
  have hacyclic := (h.alters.suits hw.toKept).kept.acyclic
  have helement := h.element
  cases holder with
  | root e => simp [Cursor.parent?] at hparent
  | step p key e =>
    obtain rfl := Option.some.inj hparent
    obtain rfl : e = some x := helement
    exact hlive.not_passes hacyclic

/-- Whatever is known is shared after the edit if it was before. -/
theorem Changes.shares (h : Changes root w place edit w' holder x kids)
    (hw : w.Intact strict root) {r : Ref} (hr : w.store.Known r) :
    (w'.refill x kids).shares r = w.shares r :=
  (h.alters.suits hw.toKept).grows.shares hr

/-- A place that does not lie below the owner of what changed was live before. -/
theorem Changes.live_before (h : Changes root w place edit w' holder x kids)
    (hw : w.Intact strict root) (howner : Owned w.store root place holder owner) {c : Cursor}
    (hc : c.Live (w'.refill x kids).store root) (hnot : ¬ owner.Above c) :
    c.Live w.store root ∧ ∀ r, c.element = some r → w.store.Known r := by
  have hintact := h.intact hw
  have hgrows := (h.alters.suits hw.toKept).grows
  have hxknown := hw.known_of_reaches hw.root_known (h.live.reaches h.element)
  have hxown : (w'.refill x kids).shares x = false := by rw [h.shares hw hxknown, h.own]
  refine Cursor.Live.of_extends hgrows.store hw.closed hw.root_known
    ((Cursor.live_refill_iff fun parent hparent hpasses => hnot ?_).mp hc)
  obtain ⟨a, habove, ha⟩ := hpasses.above
  have hac : a.Above c := by
    cases c with
    | root e => simp [Cursor.parent?] at hparent
    | step p key e =>
      obtain rfl := Option.some.inj hparent
      exact .inr habove
  have heq : a = holder := Cursor.Live.unique hintact.acyclic
    (fun _ _ hp hpc => hintact.shares_holds hp hpc) hintact.nodup (hc.above hac)
    (h.holder_live hw) ha h.element hxown
  exact howner.above_holder.trans (heq ▸ hac)

/-- What lies neither above nor below the owner of what changed does not reach it. -/
theorem Changes.not_reaches (h : Changes root w place edit w' holder x kids)
    (hw : w.Intact strict root) (howner : Owned w.store root place holder owner) {c : Cursor}
    (hc : c.Live w.store root) (hnot : ¬ owner.Above c) (hnot' : ¬ c.Above owner) {r : Ref}
    (hr : c.element = some r) : ¬ w.store.Reaches r x := by
  intro hreach
  obtain ⟨d, habove, hd, hx⟩ := hc.extend hw.typed hr hreach
  have heq : d = holder := Cursor.Live.unique hw.acyclic
    (fun _ _ hp hpc => hw.shares_holds hp hpc) hw.nodup hd h.live hx h.element h.own
  subst heq
  rcases howner.holder with rfl | ⟨key, e, rfl⟩
  · exact hnot' habove
  · rcases habove with rfl | habove
    · exact hnot (.inr owner.above_refl)
    · exact hnot' habove

/-- A rule fires apart from what changed only where it fired before. -/
theorem Changes.fires_before (h : Changes root w place edit w' holder x kids)
    (hw : w.Intact strict root) (howner : Owned w.store root place holder owner) {c : Cursor}
    (hc : c.Live (w'.refill x kids).store root) (hnot : ¬ owner.Above c)
    (hnot' : ¬ c.Above owner) (hfires : Fires sims (w'.refill x kids) c) :
    c.Live w.store root ∧ Fires sims w c := by
  have hgrows := (h.alters.suits hw.toKept).grows
  obtain ⟨hlive, hknown⟩ := h.live_before hw howner hc hnot
  refine ⟨hlive, ?_⟩
  have hne : ∀ r, ¬ w.store.Reaches r x → r ≠ x := by
    rintro r hr rfl
    exact hr .refl
  -- both workspaces agree on what does not lead to the changed element, and rules look no further
  have hagrees : Agrees w (w'.refill x kids) fun r =>
      w.store.Known r ∧ ¬ w.store.Reaches r x := by
    refine ⟨?_, ?_, ?_⟩
    · rintro p c ⟨_, hp⟩ hpc
      exact ⟨hw.closed p c hpc, fun hreach => hp (hreach.head hpc)⟩
    · rintro r ⟨hr, hreach⟩
      rw [Workspace.refill, Store.get_refill_ne kids (hne r hreach), hgrows.store.get r hr]
    · rintro r ⟨hr, _⟩
      exact hgrows.valueOf? hr
  obtain ⟨sim, hsim, hsome⟩ := hfires
  have hsame : (sim.propose c (w'.refill x kids)).isSome = (sim.propose c w).isSome := by
    refine hagrees.propose ?_ ?_ sim
    · intro r hr
      exact ⟨hknown r hr, h.not_reaches hw howner hlive hnot hnot' hr⟩
    · intro p o hp ho
      have hpabove : p.Above c := by
        cases c with
        | root e => simp [Cursor.parent?] at hp
        | step q key e =>
          obtain rfl := Option.some.inj hp
          exact .inr (Cursor.above_refl q)
      have hoknown := hw.known_of_reaches hw.root_known ((hlive.above hpabove).reaches ho)
      rw [Workspace.refill, Store.label?_refill, Store.label?, hgrows.store.get o hoknown,
        Store.label?]
  exact ⟨sim, hsim, hsame ▸ hsome⟩

end Changes

/-! ## The invariant -/

namespace Run

variable {σ : Type} {pass : Pass σ} {run run' : Run σ}

/-- Every place where a rule would propose something is covered, with all places above it. -/
structure Covered (strict : Strictness) (sims : List Simplification) (root : Ref) (run : Run σ) :
    Prop where
  sound : run.Sound strict root
  covers : ∀ c, c.Live run.workspace.store root → Fires sims run.workspace c →
    Covers run.agenda c.line

/-- A place that leads the same way as one where a rule fires refreshes to the latter. -/
theorem Sound.refresh_of_track (hrun : run.Sound strict root) {place c : Cursor}
    (hplace : place.Proper root) (hc : c.Live run.workspace.store root)
    (hfires : Fires sims run.workspace c) (htrack : place.track = c.track) :
    place.refresh? run.workspace.store = some c := by
  obtain ⟨d, hd⟩ := hc.refresh hrun.intact.typed hrun.intact.root_node hplace htrack
  have hd' : place.refresh? run.workspace.store = some d := by
    simp [Cursor.refresh?, hd, Except.toOption]
  obtain ⟨r, hr, hown⟩ := hfires.own hrun.intact.toKept
  have helement : d.element = c.element := by
    rw [(Cursor.refresh_live hplace hd).1, ← Cursor.element_track, htrack, Cursor.element_track]
  obtain ⟨hlive, _⟩ := live_of_refresh hplace hd' (by simp [helement, hr])
  rw [hd', hrun.unique hlive hc helement (helement.trans hr) hown]

/-- When a place has its turn, a line goes on to be covered unless it starts there. -/
theorem Sound.covers_rest (hrun : run.Sound strict root) {place c : Cursor}
    (hplace : place.Proper root) (hc : c.Live run.workspace.store root)
    (hfires : Fires sims run.workspace c) {visits : List Visit}
    (h : Covers (.alone place :: visits) c.line) :
    Covers visits c.line ∨ place.refresh? run.workspace.store = some c := by
  generalize hline : c.line = line at h
  cases h with
  | nil =>
    rw [c.line_eq] at hline
    cases hline
  | skip h => exact .inl h
  | alone h =>
    refine .inr ?_
    rw [c.line_eq] at hline
    exact hrun.refresh_of_track hplace hc hfires (List.cons.inj hline).1.symm

/-- The owner of what changed is walked again. -/
theorem Sound.owner_tainted (hsound : run'.Sound strict root) (hw : w.Intact strict root)
    {place holder owner : Cursor} {edit : Edit} {x : Ref} {kids : List (Option Ref)}
    (h : Changes root w place edit w' holder x kids)
    (howner : Owned w.store root place holder owner)
    (hworkspace : run'.workspace = w'.refill x kids) :
    owner ∈ tainted run'.workspace.store edit := by
  have hgrows := (h.alters.suits hw.toKept).grows
  have hlive : owner.Live run'.workspace.store root := by
    rw [hworkspace]
    exact (h.holder_live hw).above howner.above_holder
  obtain ⟨y, hy⟩ := hlive.element_isSome
  have hyown : run'.workspace.shares y = false := by
    rw [hworkspace, h.shares hw (hw.known_of_reaches hw.root_known (howner.live.reaches hy))]
    exact h.live.own_above (fun _ _ hp hpc => hw.shares_holds hp hpc) h.element h.own
      howner.above_holder hy
  -- the owner is where the way back from the place of the edit stops
  have hretraced : retraced run'.workspace.store holder = owner := by
    refine howner.retraced _ fun r hr => ?_
    rw [hworkspace, Workspace.refill, Store.isList_refill, Store.isList, hgrows.store.get r hr,
      Store.isList]
  obtain ⟨fresh, hfresh⟩ :=
    hlive.refresh hsound.intact.typed hsound.intact.root_node hlive.proper rfl
  have helement := (Cursor.refresh_live hlive.proper hfresh).1
  have hrefresh : (retraced run'.workspace.store holder).refresh? run'.workspace.store =
      some fresh := by
    simp [hretraced, Cursor.refresh?, hfresh, Except.toOption]
  obtain ⟨c, hc, hcelement⟩ :=
    exists_tainted h.mem_invalidated hrefresh (by simp [helement, hy])
  obtain ⟨d, hd, hdrefresh, hdsome⟩ := mem_tainted hc
  obtain ⟨hclive, _⟩ := live_of_refresh (retraced_proper _ (h.proper d hd)) hdrefresh hdsome
  rwa [← hsound.unique hclive hlive (hcelement.trans helement)
    (hcelement.trans (helement.trans hy)) hyown]

/-- The visit of one place takes at most the first place of a line. -/
theorem covers_tail {visits : List Visit} {visited d : Cursor} {line : List Cursor}
    (h : Covers (.alone visited :: visits) (d :: line)) : Covers visits line := by
  cases h with
  | skip hrest => exact hrest.tail
  | alone hrest => exact hrest

/-- If the edit comes from a place that was covered, the line of the node above it is covered by
what remains after the visit. -/
theorem covers_owner {s : Store} {place holder owner visited : Cursor} {visits : List Visit}
    (h : Owned s root place holder owner) (hcovers : Covers (.alone visited :: visits) place.line) :
    Covers visits owner.line := by
  obtain ⟨parent, key, e, rfl, habove⟩ := h.place
  obtain ⟨below, hbelow⟩ := habove.line
  have hparent : Covers visits parent.line := covers_tail hcovers
  rw [hbelow] at hparent
  exact hparent.suffix

/-- What was covered before an edit is covered after it. -/
theorem Covered.edited (hrun : run.Covered strict sims root) {visits : List Visit}
    {visited place holder : Cursor} {edit : Edit} {x : Ref} {kids : List (Option Ref)}
    (hagenda : run.agenda = .alone visited :: visits)
    (hfresh : visited.refresh? run.workspace.store = some place)
    (hlive : place.Live run.workspace.store root)
    (hpropose : ∃ sim ∈ sims, sim.propose place run.workspace = some (edit, w'))
    (h : Changes root run.workspace place edit w' holder x kids)
    (hsound : run'.Sound strict root) (hworkspace : run'.workspace = w'.refill x kids)
    (hagenda' : run'.agenda = visits) :
    (run'.reschedule edit).Covered strict sims root := by
  have hw := hrun.sound.intact
  obtain ⟨owner, howner⟩ := h.owned hw
  have hmem : Visit.alone visited ∈ run.agenda := by simp [hagenda]
  have hvisited : visited.Proper root := hrun.sound.proper hmem
  have hfires : Fires sims run.workspace place := by
    obtain ⟨sim, hsim, hsome⟩ := hpropose
    exact ⟨sim, hsim, by simp [hsome]⟩
  have hline : Covers run'.agenda owner.line := by
    have hcovers := hrun.covers place hlive hfires
    rw [hagenda] at hcovers
    rw [hagenda']
    exact covers_owner howner hcovers
  have htainted : ∀ p ∈ tainted run'.workspace.store edit, p.Live run'.workspace.store root := by
    intro p hp
    obtain ⟨d, hd, hrefresh, hsome⟩ := mem_tainted hp
    exact (live_of_refresh (retraced_proper _ (h.proper d hd)) hrefresh hsome).1
  have hown : ∀ {c}, Fires sims run'.workspace c → ∃ r, c.element = some r ∧
      run'.workspace.shares r = false := fun hf => hf.own hsound.intact.toKept
  refine ⟨hsound.reschedule h.proper, fun c hc hf => ?_⟩
  rw [workspace_reschedule] at hc hf
  obtain ⟨r, hr, hrown⟩ := hown hf
  rw [reschedule_eq]
  by_cases habove : owner.Above c
  · exact covers_resumeAll_below hsound htainted (hsound.owner_tainted hw h howner hworkspace) hc
      habove hr hrown hline
  · refine covers_resumeAll hsound htainted hc hr hrown ?_
    by_cases habove' : c.Above owner
    · obtain ⟨below, hbelow⟩ := habove'.line
      rw [hbelow] at hline
      exact hline.suffix
    · rw [hworkspace] at hc hf
      obtain ⟨hc', hf'⟩ := h.fires_before hw howner hc habove habove' hf
      have hcovers := hrun.covers c hc' hf'
      rw [hagenda] at hcovers
      rw [hagenda']
      rcases hrun.sound.covers_rest hvisited hc' hf' hcovers with hrest | hsame
      · exact hrest
      · obtain rfl := Option.some.inj (hfresh.symm.trans hsame)
        exact absurd howner.above_place habove

/-- A step keeps the invariant. -/
theorem Moves.covered (h : Moves sims pass root run run') (hrun : run.Covered strict sims root) :
    run'.Covered strict sims root := by
  have hsound := h.sound hrun.sound
  cases h with
  | @closed task rest htasks hagenda =>
    refine ⟨hsound, fun c hc hfires => ?_⟩
    have hcovers := hrun.covers c hc hfires
    rwa [agenda, htasks, List.flatMap_cons, hagenda] at hcovers
  | @entered task task' rest place visits htasks hagenda _ hagenda' =>
    refine ⟨hsound, fun c hc hfires => ?_⟩
    have hcovers := hrun.covers c hc hfires
    rw [agenda_cons htasks hagenda] at hcovers
    have hopened := Covers.opened hrun.sound.intact.typed hc hcovers
    rwa [← List.append_assoc, ← hagenda'] at hopened
  | @left task task' rest place visits stats htasks hagenda _ hagenda' _ hnone =>
    refine ⟨hsound, fun c hc hfires => ?_⟩
    have hcovers := hrun.covers c hc hfires
    have hplace : place.Proper root := hrun.sound.proper (mem_agenda htasks hagenda)
    rw [agenda_cons htasks hagenda] at hcovers
    rcases hrun.sound.covers_rest hplace hc hfires hcovers with hrest | hfresh
    · rwa [← hagenda'] at hrest
    · -- a rule was asked at this place and proposed nothing
      obtain ⟨sim, hsim, hsome⟩ := hfires
      rw [hnone c hfresh sim hsim] at hsome
      simp at hsome
  | @edited task task' rest place fresh visits edit w' store stats htasks hagenda hroot hagenda'
      hproposes happly hvalid =>
    obtain ⟨hlive, holder, x, kids, hchanges, rfl⟩ :=
      Proposes.changes hrun.sound (mem_agenda htasks hagenda) hproposes happly
    refine hrun.edited (agenda_cons htasks hagenda) hproposes.refresh hlive hproposes.propose hchanges
      ⟨hchanges.intact hrun.sound.intact, hrun.sound.tasks_left htasks hagenda hroot hagenda'⟩ rfl ?_
    rw [agenda, List.flatMap_cons, hagenda']

/-- At its start a run is to walk through everything. -/
theorem covered_start (hw : w.Intact strict root) (memory : σ) (before : Text) :
    (start w memory root before).Covered strict sims root := by
  refine ⟨sound_start hw memory before, fun c hc _ => ?_⟩
  have hagenda : (start w memory root before).agenda =
      Visit.opened w.store (.root (some root)) ++ [] := by
    simp [start, push, agenda, agenda_start]
  rw [hagenda]
  refine Covers.opened hw.typed hc ?_
  obtain ⟨below, hbelow⟩ := hc.root_above.line
  rw [hbelow]
  exact .whole below (.nil _)

end Run

end ScriptSimplifier
