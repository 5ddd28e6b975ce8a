import ScriptSimplifier.Proofs.Pass.Unvisited

/-!
# The innermost place has its turn first

An agenda visits a line *in order* if it covers the line and visits no place of it before those
below that are still to be visited.  This is more than covering, where a place may be visited early
and then once more.  At every moment of a run the lines from all places where a rule would propose
something are visited in order (`Ordered`), so when a rule proposes something at the place whose
turn it is, no rule would propose anything below that place (`Ordered.quiet_below`).
-/

namespace ScriptSimplifier

open Workspace

/-! ## Lines -/

namespace Cursor

theorem Above.track_mem {a c : Cursor} (h : a.Above c) : a.track ∈ c.line := by
  obtain ⟨below, hbelow⟩ := h.line
  rw [hbelow, a.line_eq]
  exact List.mem_append_right _ List.mem_cons_self

/-- A line that has a place has the one above it. -/
theorem track_parent_mem {c parent : Cursor} {key : Key} {e : Option Ref}
    (h : (Cursor.step parent key e).track ∈ c.line) : parent.track ∈ c.line := by
  obtain ⟨a, habove, htrack⟩ := mem_line h
  cases a with
  | root e => cases htrack
  | step p key' e' =>
    obtain ⟨hp, -, -⟩ := Cursor.step.inj htrack
    rw [← hp]
    have hparent : p.Above (.step p key' e') := Or.inr p.above_refl
    exact (hparent.trans habove).track_mem

/-- A line has one place of each depth. -/
theorem eq_of_mem_line {c a b : Cursor} (ha : a ∈ c.line) (hb : b ∈ c.line)
    (h : a.depth = b.depth) : a = b := by
  induction c with
  | root e =>
    obtain rfl : a = .root e := by simpa [line] using ha
    obtain rfl : b = .root e := by simpa [line] using hb
    rfl
  | step parent key e ih =>
    rcases List.mem_cons.mp ha with rfl | ha <;> rcases List.mem_cons.mp hb with rfl | hb
    · rfl
    · have := depth_le_of_mem_line hb
      rw [depth_track] at h
      simp only [depth] at h
      omega
    · have := depth_le_of_mem_line ha
      rw [depth_track] at h
      simp only [depth] at h
      omega
    · exact ih ha hb

theorem nodup_line (c : Cursor) : c.line.Nodup := by
  induction c with
  | root e => exact List.nodup_singleton _
  | step parent key e ih =>
    refine List.nodup_cons.mpr ⟨fun hmem => ?_, ih⟩
    have := depth_le_of_mem_line hmem
    rw [depth_track] at this
    simp only [depth] at this
    omega

end Cursor

/-! ## Visiting in order -/

/-- An agenda visits the places of a line in order, and none of them before its turn. -/
inductive InOrder : List Visit → List Cursor → Prop
  | nil (visits : List Visit) : InOrder visits []
  | skip {visit : Visit} {visits : List Visit} {line : List Cursor} :
      visit.place.track ∉ line → InOrder visits line → InOrder (visit :: visits) line
  | alone {place : Cursor} {visits : List Visit} {line : List Cursor} : InOrder visits line →
      InOrder (.alone place :: visits) (place.track :: line)
  | whole {place : Cursor} {visits : List Visit} {line : List Cursor} (below : List Cursor) :
      InOrder visits line → InOrder (.whole place :: visits) (below ++ place.track :: line)

namespace InOrder

variable {visits more : List Visit} {line : List Cursor}

theorem tail {d : Cursor} (h : InOrder visits (d :: line)) (hnodup : (d :: line).Nodup) :
    InOrder visits line := by
  generalize hl : d :: line = l at h hnodup
  induction h generalizing d line with
  | nil visits => cases hl
  | skip hnot _ ih =>
    refine .skip (fun hmem => hnot ?_) (ih hl hnodup)
    rw [← hl]
    exact List.mem_cons_of_mem _ hmem
  | alone hrest =>
    obtain ⟨_, rfl⟩ := List.cons.inj hl
    exact .skip (List.nodup_cons.mp hnodup).1 hrest
  | @whole place visits rest below hrest =>
    cases below with
    | nil =>
      obtain ⟨_, rfl⟩ := List.cons.inj hl
      exact .skip (List.nodup_cons.mp hnodup).1 hrest
    | cons b below =>
      obtain ⟨_, rfl⟩ := List.cons.inj hl
      exact .whole below hrest

theorem suffix {below : List Cursor} (h : InOrder visits (below ++ line))
    (hnodup : (below ++ line).Nodup) : InOrder visits line := by
  induction below with
  | nil => exact h
  | cons b below ih => exact ih (h.tail hnodup) (List.nodup_cons.mp hnodup).2

theorem above {a c : Cursor} (h : InOrder visits c.line) (habove : a.Above c) :
    InOrder visits a.line := by
  obtain ⟨below, hbelow⟩ := habove.line
  have hnodup := c.nodup_line
  rw [hbelow] at h hnodup
  exact h.suffix hnodup

theorem prepend (hnot : ∀ visit ∈ more, visit.place.track ∉ line) (h : InOrder visits line) :
    InOrder (more ++ visits) line := by
  induction more with
  | nil => exact h
  | cons visit more ih =>
    obtain ⟨hvisit, hmore⟩ := List.forall_mem_cons.mp hnot
    exact .skip hvisit (ih hmore)

/-- Visits for other places may be left out. -/
theorem remove {gone : List Visit} (hnot : ∀ visit ∈ gone, visit.place.track ∉ line)
    (h : InOrder (visits ++ (gone ++ more)) line) : InOrder (visits ++ more) line := by
  induction visits generalizing line with
  | nil =>
    induction gone with
    | nil => exact h
    | cons visit gone ih =>
      obtain ⟨hvisit, hgone⟩ := List.forall_mem_cons.mp hnot
      cases h with
      | nil => exact .nil _
      | skip _ h => exact ih hgone h
      | alone h => exact absurd List.mem_cons_self hvisit
      | whole below h => exact absurd (List.mem_append_right _ List.mem_cons_self) hvisit
  | cons visit visits ih =>
    cases h with
    | nil => exact .nil _
    | skip hvisit h => exact .skip hvisit (ih hnot h)
    | alone h =>
      exact .alone (ih (fun v hv hmem => hnot v hv (List.mem_cons_of_mem _ hmem)) h)
    | whole below h =>
      refine .whole below (ih (fun v hv hmem => hnot v hv ?_) h)
      exact List.mem_append_right _ (List.mem_cons_of_mem _ hmem)

/-- Tasks for other places may be left out. -/
theorem filter (visits : List Visit) {tasks : List Task} {keep : Task → Bool}
    (hnot : ∀ task ∈ tasks, keep task = false → ∀ visit ∈ task.agenda, visit.place.track ∉ line)
    (h : InOrder (visits ++ tasks.flatMap Task.agenda) line) :
    InOrder (visits ++ (tasks.filter keep).flatMap Task.agenda) line := by
  induction tasks generalizing visits with
  | nil => exact h
  | cons task tasks ih =>
    obtain ⟨htask, hrest⟩ := List.forall_mem_cons.mp hnot
    rw [List.flatMap_cons] at h
    cases hkeep : keep task with
    | false =>
      rw [List.filter_cons_of_neg (by simp [hkeep])]
      exact ih visits hrest (h.remove (htask hkeep))
    | true =>
      rw [List.filter_cons_of_pos hkeep, List.flatMap_cons, ← List.append_assoc]
      exact ih _ hrest (by rwa [List.append_assoc])

/-- A walk through all children of a place visits a line through one of them in order. -/
theorem children {cs : List Cursor} {c : Cursor} {below : List Cursor} (hmem : c ∈ cs)
    (hsame : ∀ d ∈ cs, d.track ∈ below ++ c.track :: line → d.track = c.track)
    (hrest : ∀ d ∈ cs, d.track ∉ line) (h : InOrder more line) :
    InOrder (cs.map .whole ++ more) (below ++ c.track :: line) := by
  induction cs with
  | nil => simp at hmem
  | cons d cs ih =>
    obtain ⟨hdsame, hcssame⟩ := List.forall_mem_cons.mp hsame
    obtain ⟨-, hcsrest⟩ := List.forall_mem_cons.mp hrest
    by_cases hd : d.track = c.track
    · -- the first child with this track is the one that is walked through
      rw [← hd]
      refine .whole below (prepend (fun visit hvisit => ?_) h)
      obtain ⟨d', hd', rfl⟩ := List.mem_map.mp hvisit
      exact hcsrest d' hd'
    · have hc : c ∈ cs := by
        rcases List.mem_cons.mp hmem with rfl | hc
        · exact absurd rfl hd
        · exact hc
      exact .skip (fun hin => hd (hdsame hin)) (ih hc hcssame hcsrest)

variable {strict : Strictness} {root : Ref}

/-- A place that a line passes by is passed by all visits for what is below it. -/
theorem not_mem_opened {s : Store} {place c : Cursor} (h : place.track ∉ c.line) {visit : Visit}
    (hvisit : visit ∈ Visit.opened s place) : visit.place.track ∉ c.line := by
  unfold Visit.opened at hvisit
  split at hvisit
  · simp at hvisit
  · rcases List.mem_append.mp hvisit with hvisit | hvisit
    · obtain ⟨d, hd, rfl⟩ := List.mem_map.mp hvisit
      obtain ⟨key, rfl⟩ := Cursor.mem_children hd
      exact fun hmem => h (Cursor.track_parent_mem hmem)
    · obtain rfl := List.mem_singleton.mp hvisit
      exact h

/-- Entering a place keeps the order. -/
theorem opened {s : Store} (ht : s.Typed strict) {c : Cursor} (hc : c.Live s root)
    {place : Cursor} (h : InOrder (.whole place :: visits) c.line) :
    InOrder (Visit.opened s place ++ visits) c.line := by
  generalize hline : c.line = line at h
  cases h with
  | nil => exact .nil _
  | skip hnot h => exact prepend (fun _ hvisit => hline ▸ not_mem_opened (hline ▸ hnot) hvisit) h
  | @whole _ _ rest below h =>
    obtain ⟨a, habove, htrack, htail, -, hbelow⟩ := Cursor.line_split hline
    obtain ⟨r, hr⟩ := (hc.above habove).element_isSome
    have hplace : place.element = some r := by
      rw [← Cursor.element_track, ← htrack, Cursor.element_track, hr]
    -- what stands above the place is not one of its children
    have hup : ∀ d ∈ place.children s, d.track ∉ place.track :: rest := by
      intro d hd hmem
      rw [← htrack, ← htail, ← a.line_eq] at hmem
      have hdepth := Cursor.depth_le_of_mem_line hmem
      rw [Cursor.depth_track, ← a.depth_track, htrack, Cursor.depth_track] at hdepth
      obtain ⟨key, rfl⟩ := Cursor.mem_children hd
      simp only [Cursor.child, Cursor.depth] at hdepth
      omega
    rw [Visit.opened, hplace, if_neg (by simp), List.append_assoc]
    by_cases hnil : below = []
    · subst hnil
      refine prepend (fun visit hvisit => ?_) (.alone h)
      obtain ⟨d, hd, rfl⟩ := List.mem_map.mp hvisit
      exact hup d hd
    · -- the line comes from a child of the place
      obtain ⟨below', key, e, rfl, hstep⟩ := hbelow hnil
      obtain ⟨-, r', x, hr', rfl, hholds⟩ := hc.above hstep
      obtain rfl : r' = r := Option.some.inj (hr'.symm.trans hr)
      have hchild : Cursor.step place key (some x) ∈ place.children s := by
        rw [ht.shaped.children_eq hplace]
        exact List.mem_map.mpr ⟨(key, some x), hholds, rfl⟩
      have hsame : (Cursor.step a key (some x)).track =
          (Cursor.step place key (some x)).track := by
        simp only [Cursor.track, htrack]
      rw [List.append_assoc, List.singleton_append] at hline
      rw [hsame, List.append_assoc, List.singleton_append]
      refine children hchild (fun d hd hmem => ?_) hup (.alone h)
      have hmem : d.track ∈ c.line := by
        rw [hline, hsame]
        exact hmem
      have hdepth : d.track.depth = (Cursor.step place key (some x)).track.depth := by
        obtain ⟨key', rfl⟩ := Cursor.mem_children hd
        simp [Cursor.child, Cursor.depth]
      exact Cursor.eq_of_mem_line hmem (hsame ▸ hstep.track_mem) hdepth

end InOrder

/-! ## Walking again -/

namespace Run

variable {σ : Type} {root : Ref} {strict : Strictness} {run : Run σ}

theorem agenda_resume (run : Run σ) (place : Cursor) : (run.resume place).agenda =
    Visit.opened run.workspace.store place ++
      (run.tasks.filter (·.root != place.element)).flatMap Task.agenda := by
  rw [agenda, tasks_resume, List.flatMap_cons, agenda_start]

/-- Walking again from a place visits everything below it in order, if what is above it was to be
visited in order. -/
theorem inOrder_below (hrun : run.Sound strict root) {place c : Cursor}
    (hc : c.Live run.workspace.store root) (habove : place.Above c) {r : Ref}
    (hr : c.element = some r) (hown : run.workspace.shares r = false)
    (h : InOrder run.agenda place.line.tail) : InOrder (run.resume place).agenda c.line := by
  have hplace := hc.above habove
  obtain ⟨x, hx⟩ := hplace.element_isSome
  have hxown := hc.own_above (fun _ _ hp hpc => hrun.intact.shares_holds hp hpc) hr hown habove hx
  have hkept : InOrder ((run.tasks.filter (·.root != place.element)).flatMap Task.agenda)
      place.line.tail := by
    refine InOrder.filter [] (fun task htask hdropped visit hvisit hmem => ?_) h
    have hback := hrun.dropped_below htask hplace (by simpa using hdropped) hvisit hplace hx hxown
      (List.mem_of_mem_tail hmem)
    have hdepth := Cursor.depth_lt_of_mem_tail hmem
    omega
  obtain ⟨below, hbelow⟩ := habove.line
  rw [agenda_resume]
  refine InOrder.opened hrun.intact.typed hc ?_
  rw [hbelow, place.line_eq]
  exact .whole below hkept

/-- Walking again from a place keeps the order. -/
theorem inOrder_resume (hrun : run.Sound strict root) {place c : Cursor}
    (hplace : place.Live run.workspace.store root) (hc : c.Live run.workspace.store root) {r : Ref}
    (hr : c.element = some r) (hown : run.workspace.shares r = false)
    (h : InOrder run.agenda c.line) : InOrder (run.resume place).agenda c.line := by
  by_cases habove : place.Above c
  · refine inOrder_below hrun hc habove hr hown ?_
    have hline := h.above habove
    have hnodup := place.nodup_line
    rw [place.line_eq] at hline hnodup
    exact hline.tail hnodup
  · rw [agenda_resume]
    refine InOrder.prepend (fun visit hvisit => InOrder.not_mem_opened (fun hmem => ?_) hvisit)
      (InOrder.filter [] (fun task htask hdropped visit hvisit hmem => ?_) h)
    · -- the line has a place with this element, and the element has one place
      obtain ⟨a, ha, htrack⟩ := Cursor.mem_line hmem
      have helement : a.element = place.element := by
        rw [← Cursor.element_track, htrack, Cursor.element_track]
      obtain ⟨x, hx⟩ := (hc.above ha).element_isSome
      have hxown := hc.own_above (fun _ _ hp hpc => hrun.intact.shares_holds hp hpc) hr hown ha hx
      rw [hrun.unique (hc.above ha) hplace helement hx hxown] at ha
      exact habove ha
    · exact habove (hrun.dropped_below htask hplace (by simpa using hdropped) hvisit hc hr hown
        hmem).1

theorem inOrder_resumeAll (hrun : run.Sound strict root) {places : List Cursor}
    (hplaces : ∀ p ∈ places, p.Live run.workspace.store root) {c : Cursor}
    (hc : c.Live run.workspace.store root) {r : Ref} (hr : c.element = some r)
    (hown : run.workspace.shares r = false) (h : InOrder run.agenda c.line) :
    InOrder (places.foldl resume run).agenda c.line := by
  induction places generalizing run with
  | nil => exact h
  | cons p places ih =>
    obtain ⟨hp, hrest⟩ := List.forall_mem_cons.mp hplaces
    exact ih (hrun.resume hp.proper) hrest hc hown (inOrder_resume hrun hp hc hr hown h)

/-- Walking again from several places visits everything below each of them in order whose own line
was to be visited in order. -/
theorem inOrder_resumeAll_below (hrun : run.Sound strict root) {places : List Cursor}
    (hplaces : ∀ p ∈ places, p.Live run.workspace.store root) {place c : Cursor}
    (hmem : place ∈ places) (hc : c.Live run.workspace.store root) (habove : place.Above c)
    {r : Ref} (hr : c.element = some r) (hown : run.workspace.shares r = false)
    (h : InOrder run.agenda place.line) : InOrder (places.foldl resume run).agenda c.line := by
  induction places generalizing run with
  | nil => simp at hmem
  | cons p places ih =>
    obtain ⟨hp, hrest⟩ := List.forall_mem_cons.mp hplaces
    have hresume := hrun.resume hp.proper
    rcases List.mem_cons.mp hmem with rfl | hmem
    · have hnodup := place.nodup_line
      rw [place.line_eq] at h hnodup
      exact inOrder_resumeAll hresume hrest hc hr hown
        (inOrder_below hrun hc habove hr hown (h.tail hnodup))
    · have hplace := hc.above habove
      obtain ⟨x, hx⟩ := hplace.element_isSome
      have hxown := hc.own_above (fun _ _ hp hpc => hrun.intact.shares_holds hp hpc) hr hown
        habove hx
      exact ih hresume hrest hmem hc hown (inOrder_resume hrun hp hplace hx hxown h)

end Run

/-! ## The invariant -/

namespace Run

variable {σ : Type} {pass : Pass σ} {run run' : Run σ} {strict : Strictness} {root : Ref}
  {w' : Workspace} {sims : List Simplification}

/-- The lines from all places where a rule would propose something are visited in order. -/
structure Ordered (strict : Strictness) (sims : List Simplification) (root : Ref) (run : Run σ) :
    Prop where
  sound : run.Sound strict root
  inOrder : ∀ c, c.Live run.workspace.store root → Fires sims run.workspace c →
    InOrder run.agenda c.line

theorem Proposes.fires {place fresh : Cursor} {edit : Edit}
    (h : Proposes sims run place fresh edit w') : Fires sims run.workspace fresh := by
  obtain ⟨sim, hsim, hsome⟩ := h.propose
  exact ⟨sim, hsim, by simp [hsome]⟩

/-- When a place has its turn, a line goes on to be visited in order without it, or starts there. -/
theorem Sound.inOrder_rest (hrun : run.Sound strict root) {place c : Cursor}
    (hplace : place.Proper root) (hc : c.Live run.workspace.store root)
    (hfires : Fires sims run.workspace c) {visits : List Visit}
    (h : InOrder (.alone place :: visits) c.line) :
    (place.track ∉ c.line ∧ InOrder visits c.line) ∨
      place.refresh? run.workspace.store = some c ∧ InOrder visits c.line.tail := by
  generalize hline : c.line = line at h
  cases h with
  | nil =>
    rw [c.line_eq] at hline
    cases hline
  | skip hnot h => exact .inl ⟨hnot, h⟩
  | alone h =>
    rw [c.line_eq] at hline
    exact .inr ⟨hrun.refresh_of_track hplace hc hfires (List.cons.inj hline).1.symm, h⟩

/-- When a place has its turn, no rule fires below it. -/
theorem Ordered.quiet_below (hrun : run.Ordered strict sims root) {visits : List Visit}
    {visited place : Cursor} (hagenda : run.agenda = .alone visited :: visits)
    (hfresh : visited.refresh? run.workspace.store = some place)
    (hplace : place.element.isSome = true) {c : Cursor} (hc : c.Live run.workspace.store root)
    (habove : place.Above c) (hne : c ≠ place) : ¬ Fires sims run.workspace c := by
  intro hfires
  have hmem : Visit.alone visited ∈ run.agenda := by simp [hagenda]
  have hvisited : visited.Proper root := hrun.sound.proper hmem
  obtain ⟨-, -, htrack⟩ := live_of_refresh hvisited hfresh hplace
  have hline := hrun.inOrder c hc hfires
  rw [hagenda] at hline
  rcases hrun.sound.inOrder_rest hvisited hc hfires hline with ⟨hnot, -⟩ | ⟨hsame, -⟩
  · exact hnot (htrack ▸ habove.track_mem)
  · exact hne (Option.some.inj (hsame.symm.trans hfresh))

/-- What was visited in order before an edit is visited in order after it. -/
theorem Ordered.edited (hrun : run.Ordered strict sims root) {visits : List Visit}
    {visited place holder : Cursor} {edit : Edit} {x : Ref} {kids : List (Option Ref)}
    (hagenda : run.agenda = .alone visited :: visits)
    (hfresh : visited.refresh? run.workspace.store = some place)
    (hlive : place.Live run.workspace.store root) (hfires : Fires sims run.workspace place)
    (h : Changes root run.workspace place edit w' holder x kids)
    (hsound : run'.Sound strict root) (hworkspace : run'.workspace = w'.refill x kids)
    (hagenda' : run'.agenda = visits) :
    (run'.reschedule edit).Ordered strict sims root := by
  have hw := hrun.sound.intact
  obtain ⟨owner, howner⟩ := h.owned hw
  have hmem : Visit.alone visited ∈ run.agenda := by simp [hagenda]
  have hvisited : visited.Proper root := hrun.sound.proper hmem
  obtain ⟨-, -, htrack⟩ := live_of_refresh hvisited hfresh (by
    obtain ⟨r, hr⟩ := hlive.element_isSome
    simp [hr])
  -- the line above the place of the edit is still to be visited in order
  have hline : InOrder run'.agenda owner.line := by
    obtain ⟨parent, key, e, hplace, habove⟩ := howner.place
    have hinOrder := hrun.inOrder place hlive hfires
    rw [hagenda] at hinOrder
    rcases hrun.sound.inOrder_rest hvisited hlive hfires hinOrder with ⟨hnot, -⟩ | ⟨-, hrest⟩
    · exact absurd (htrack ▸ place.above_refl.track_mem) hnot
    · rw [hplace] at hrest
      rw [hagenda']
      exact InOrder.above (c := parent) hrest habove
  have htainted : ∀ p ∈ tainted run'.workspace.store edit, p.Live run'.workspace.store root := by
    intro p hp
    obtain ⟨d, hd, hrefresh, hsome⟩ := mem_tainted hp
    exact (live_of_refresh (retraced_proper _ (h.proper d hd)) hrefresh hsome).1
  refine ⟨hsound.reschedule h.proper, fun c hc hf => ?_⟩
  rw [workspace_reschedule] at hc hf
  obtain ⟨r, hr, hrown⟩ := hf.own hsound.intact.toKept
  rw [reschedule_eq]
  by_cases habove : owner.Above c
  · exact inOrder_resumeAll_below hsound htainted (hsound.owner_tainted hw h howner hworkspace) hc
      habove hr hrown hline
  · refine inOrder_resumeAll hsound htainted hc hr hrown ?_
    by_cases habove' : c.Above owner
    · exact hline.above habove'
    · rw [hworkspace] at hc hf
      obtain ⟨hc', hf'⟩ := h.fires_before hw howner hc habove habove' hf
      have hinOrder := hrun.inOrder c hc' hf'
      rw [hagenda] at hinOrder
      rw [hagenda']
      rcases hrun.sound.inOrder_rest hvisited hc' hf' hinOrder with ⟨-, hrest⟩ | ⟨hsame, -⟩
      · exact hrest
      · obtain rfl := Option.some.inj (hfresh.symm.trans hsame)
        exact absurd howner.above_place habove

/-- A step keeps the invariant. -/
theorem Moves.ordered (h : Moves sims pass root run run') (hrun : run.Ordered strict sims root) :
    run'.Ordered strict sims root := by
  have hsound := h.sound hrun.sound
  cases h with
  | @closed task rest htasks hagenda =>
    refine ⟨hsound, fun c hc hfires => ?_⟩
    have hinOrder := hrun.inOrder c hc hfires
    rwa [agenda, htasks, List.flatMap_cons, hagenda] at hinOrder
  | @entered task task' rest place visits htasks hagenda _ hagenda' =>
    refine ⟨hsound, fun c hc hfires => ?_⟩
    have hinOrder := hrun.inOrder c hc hfires
    rw [agenda_cons htasks hagenda] at hinOrder
    have hopened := InOrder.opened hrun.sound.intact.typed hc hinOrder
    rwa [← List.append_assoc, ← hagenda'] at hopened
  | @left task task' rest place visits stats htasks hagenda _ hagenda' _ hnone =>
    refine ⟨hsound, fun c hc hfires => ?_⟩
    have hinOrder := hrun.inOrder c hc hfires
    rw [agenda_cons htasks hagenda] at hinOrder
    rcases hrun.sound.inOrder_rest (hrun.sound.proper (mem_agenda htasks hagenda)) hc hfires
      hinOrder with
      ⟨-, hrest⟩ | ⟨hfresh, -⟩
    · rwa [← hagenda'] at hrest
    · -- a rule was asked at this place and proposed nothing
      obtain ⟨sim, hsim, hsome⟩ := hfires
      rw [hnone c hfresh sim hsim] at hsome
      simp at hsome
  | @edited task task' rest place fresh visits edit w' store stats htasks hagenda hroot hagenda'
      hproposes happly hvalid =>
    obtain ⟨hlive, holder, x, kids, hchanges, rfl⟩ :=
      Proposes.changes hrun.sound (mem_agenda htasks hagenda) hproposes happly
    -- what fires after the edit is below a touched place, or fired before it
    refine hrun.edited (agenda_cons htasks hagenda) hproposes.refresh hlive hproposes.fires hchanges
      ⟨hchanges.intact hrun.sound.intact, hrun.sound.tasks_left htasks hagenda hroot hagenda'⟩ rfl ?_
    rw [agenda, List.flatMap_cons, hagenda']

/-- At its start a run is to walk through everything. -/
theorem ordered_start {w : Workspace} (hw : w.Intact strict root) (memory : σ) (before : Text) :
    (start w memory root before).Ordered strict sims root := by
  refine ⟨sound_start hw memory before, fun c hc _ => ?_⟩
  have hagenda : (start w memory root before).agenda =
      Visit.opened w.store (.root (some root)) ++ [] := by
    simp [start, push, agenda, agenda_start]
  rw [hagenda]
  refine InOrder.opened hw.typed hc ?_
  obtain ⟨below, hbelow⟩ := hc.root_above.line
  rw [hbelow]
  exact .whole below (.nil _)

end Run

end ScriptSimplifier
