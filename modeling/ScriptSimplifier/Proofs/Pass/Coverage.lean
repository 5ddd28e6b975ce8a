import ScriptSimplifier.Proofs.Pass.Runs

/-!
# Coverage

An agenda *covers* the line from a place up to the root if it visits all places of the line in this
order: each by itself, or several of them in the walk through everything below one of them.
Entering a place keeps what is covered, and so does walking again from a place, although walks from
the same element are dropped (`Covers.opened`, `Covers.resume`).
-/

namespace ScriptSimplifier

open Workspace

/-! ## Lines -/

namespace Cursor

/-- A place is another one or lies on the way to it. -/
def Above (a : Cursor) : Cursor → Prop
  | .root e => a = .root e
  | .step parent key e => a = .step parent key e ∨ a.Above parent

/-- The places from one up to the root, without positions in lists. -/
def line : Cursor → List Cursor
  | .root e => [.root e]
  | .step parent key e => (Cursor.step parent key e).track :: parent.line

theorem line_eq (c : Cursor) : c.line = c.track :: c.line.tail := by
  cases c <;> rfl

@[simp] theorem above_refl (c : Cursor) : c.Above c := by
  cases c with
  | root e => rfl
  | step parent key e => exact .inl rfl

theorem Above.trans {a b c : Cursor} (hab : a.Above b) (hbc : b.Above c) : a.Above c := by
  induction c with
  | root e =>
    obtain rfl : b = .root e := hbc
    exact hab
  | step parent key e ih =>
    rcases hbc with rfl | hbc
    · exact hab
    · exact .inr (ih hbc)

theorem Above.depth_le {a c : Cursor} (h : a.Above c) : a.depth ≤ c.depth := by
  induction c with
  | root e =>
    obtain rfl : a = .root e := h
    exact Nat.le_refl _
  | step parent key e ih =>
    rcases h with rfl | h
    · exact Nat.le_refl _
    · exact Nat.le_succ_of_le (ih h)

/-- The line from a place above is the end of the line. -/
theorem Above.line {a c : Cursor} (h : a.Above c) : ∃ below, c.line = below ++ a.line := by
  induction c with
  | root e =>
    obtain rfl : a = .root e := h
    exact ⟨[], rfl⟩
  | step parent key e ih =>
    rcases h with rfl | h
    · exact ⟨[], rfl⟩
    · obtain ⟨below, hbelow⟩ := ih h
      exact ⟨_ :: below, congrArg (List.cons _) hbelow⟩

/-- A member of a line belongs to a place above, with the rest of the line above it and a step to
what stands before it. -/
theorem line_split {c d : Cursor} {below rest : List Cursor} (h : c.line = below ++ d :: rest) :
    ∃ a, a.Above c ∧ a.track = d ∧ a.line.tail = rest ∧ (below = [] → a = c) ∧
      (below ≠ [] → ∃ below' key e, below = below' ++ [(Cursor.step a key e).track] ∧
        (Cursor.step a key e).Above c) := by
  induction c generalizing below with
  | root e =>
    cases below with
    | nil =>
      obtain ⟨rfl, rfl⟩ : Cursor.root e = d ∧ rest = [] := by simpa [line] using h
      exact ⟨.root e, rfl, rfl, rfl, fun _ => rfl, fun hne => absurd rfl hne⟩
    | cons b below => simp [line] at h
  | step parent key e ih =>
    cases below with
    | nil =>
      obtain ⟨htrack, hrest⟩ := List.cons.inj h
      exact ⟨.step parent key e, .inl rfl, htrack, hrest, fun _ => rfl, fun hne => absurd rfl hne⟩
    | cons b below =>
      obtain ⟨rfl, hparent⟩ := List.cons.inj h
      obtain ⟨a, habove, htrack, htail, hnil, hcons⟩ := ih hparent
      refine ⟨a, .inr habove, htrack, htail, fun hne => absurd hne (by simp), fun _ => ?_⟩
      by_cases hbelow : below = []
      · obtain rfl := hnil hbelow
        exact ⟨[], key, e, by simp [hbelow], .inl rfl⟩
      · obtain ⟨below', key', e', rfl, habove'⟩ := hcons hbelow
        exact ⟨_ :: below', key', e', rfl, .inr habove'⟩

theorem mem_line {c d : Cursor} (h : d ∈ c.line) : ∃ a : Cursor, a.Above c ∧ a.track = d := by
  obtain ⟨below, rest, hsplit⟩ := List.append_of_mem h
  obtain ⟨a, habove, htrack, _⟩ := line_split hsplit
  exact ⟨a, habove, htrack⟩

@[simp] theorem depth_track (c : Cursor) : c.track.depth = c.depth := by
  induction c with
  | root e => rfl
  | step parent key e ih => exact congrArg (· + 1) ih

theorem depth_le_of_mem_line {c d : Cursor} (h : d ∈ c.line) : d.depth ≤ c.depth := by
  obtain ⟨a, habove, rfl⟩ := mem_line h
  rw [depth_track]
  exact habove.depth_le

/-- Above a place the line goes up. -/
theorem depth_lt_of_mem_tail {c d : Cursor} (h : d ∈ c.line.tail) : d.depth < c.depth := by
  cases c with
  | root e => simp [line] at h
  | step parent key e => exact Nat.lt_succ_of_le (depth_le_of_mem_line h)

theorem passes_track {c : Cursor} {e : Option Ref} : c.track.Passes e ↔ c.Passes e := by
  induction c with
  | root e' => rfl
  | step parent key e' ih => exact or_congr_right ih

/-- What a place passes is the element of a place above it. -/
theorem Passes.above {c : Cursor} {e : Option Ref} (h : c.Passes e) :
    ∃ a : Cursor, a.Above c ∧ a.element = e := by
  induction c with
  | root e' => exact ⟨.root e', rfl, h⟩
  | step parent key e' ih =>
    rcases h with rfl | h
    · exact ⟨_, above_refl _, rfl⟩
    · obtain ⟨a, habove, helement⟩ := ih h
      exact ⟨a, .inr habove, helement⟩

variable {s : Store} {root : Ref}

theorem Live.above {a c : Cursor} (hc : c.Live s root) (h : a.Above c) : a.Live s root := by
  induction c with
  | root e =>
    obtain rfl : a = .root e := h
    exact hc
  | step parent key e ih =>
    rcases h with rfl | h
    · exact hc
    · exact ih hc.1 h

theorem Live.root_above {c : Cursor} (hc : c.Live s root) : (Cursor.root (some root)).Above c := by
  induction c with
  | root e => exact congrArg Cursor.root (show e = some root from hc).symm
  | step parent key e ih => exact .inr (ih hc.1)

/-- What lies above a place that is not shared is not shared. -/
theorem Live.own_above {shared : Ref → Bool}
    (hclosed : ∀ p c, shared p = true → s.Holds p c → shared c = true) {a c : Cursor}
    (hc : c.Live s root) {r : Ref} (hr : c.element = some r) (hown : shared r = false)
    (h : a.Above c) {x : Ref} (hx : a.element = some x) : shared x = false := by
  induction c generalizing r with
  | root e =>
    obtain rfl : a = .root e := h
    rwa [Option.some.inj (hx.symm.trans hr)]
  | step parent key e ih =>
    rcases h with rfl | h
    · rwa [Option.some.inj (hx.symm.trans hr)]
    · obtain ⟨hparent, p, x', hp, hx', hholds⟩ := hc
      obtain rfl : x' = r := Option.some.inj (hx'.symm.trans hr)
      exact ih hparent hp (parent_own hclosed hown hholds.holds) h

end Cursor

/-! ## Covering -/

/-- An agenda visits places in order. -/
inductive Covers : List Visit → List Cursor → Prop
  | nil (visits : List Visit) : Covers visits []
  | skip {visit : Visit} {visits : List Visit} {line : List Cursor} : Covers visits line →
      Covers (visit :: visits) line
  | alone {place : Cursor} {visits : List Visit} {line : List Cursor} : Covers visits line →
      Covers (.alone place :: visits) (place.track :: line)
  | whole {place : Cursor} {visits : List Visit} {line : List Cursor} (below : List Cursor) :
      Covers visits line → Covers (.whole place :: visits) (below ++ place.track :: line)

namespace Covers

variable {visits more : List Visit} {line : List Cursor}

theorem tail {d : Cursor} (h : Covers visits (d :: line)) : Covers visits line := by
  generalize hl : d :: line = l at h
  induction h generalizing d line with
  | nil visits => cases hl
  | skip _ ih => exact .skip (ih hl)
  | alone hrest =>
    obtain ⟨_, rfl⟩ := List.cons.inj hl
    exact .skip hrest
  | @whole place visits rest below hrest =>
    cases below with
    | nil =>
      obtain ⟨_, rfl⟩ := List.cons.inj hl
      exact .skip hrest
    | cons b below =>
      obtain ⟨_, rfl⟩ := List.cons.inj hl
      exact .whole below hrest

theorem suffix {below : List Cursor} (h : Covers visits (below ++ line)) :
    Covers visits line := by
  induction below with
  | nil => exact h
  | cons b below ih => exact ih h.tail

theorem prepend (more : List Visit) (h : Covers visits line) : Covers (more ++ visits) line := by
  induction more with
  | nil => exact h
  | cons visit more ih => exact .skip ih

theorem append {line' : List Cursor} (h : Covers visits line) (h' : Covers more line') :
    Covers (visits ++ more) (line ++ line') := by
  induction h with
  | nil visits => exact h'.prepend visits
  | skip _ ih => exact .skip ih
  | alone _ ih => exact .alone ih
  | whole below _ ih =>
    rw [List.append_assoc, List.cons_append]
    exact .whole below ih

theorem split (h : Covers (visits ++ more) line) :
    ∃ line₁ line₂, line = line₁ ++ line₂ ∧ Covers visits line₁ ∧ Covers more line₂ := by
  induction visits generalizing line with
  | nil => exact ⟨[], line, rfl, .nil _, h⟩
  | cons visit visits ih =>
    cases h with
    | nil => exact ⟨[], [], rfl, .nil _, .nil _⟩
    | skip h =>
      obtain ⟨line₁, line₂, rfl, h₁, h₂⟩ := ih h
      exact ⟨line₁, line₂, rfl, .skip h₁, h₂⟩
    | alone h =>
      obtain ⟨line₁, line₂, rfl, h₁, h₂⟩ := ih h
      exact ⟨_ :: line₁, line₂, rfl, .alone h₁, h₂⟩
    | whole below h =>
      obtain ⟨line₁, line₂, rfl, h₁, h₂⟩ := ih h
      exact ⟨below ++ _ :: line₁, line₂, by simp, .whole below h₁, h₂⟩

/-- Visits for other places are not needed. -/
theorem drop (hnot : ∀ visit ∈ visits, visit.place.track ∉ line)
    (h : Covers (visits ++ more) line) : Covers more line := by
  induction visits with
  | nil => exact h
  | cons visit visits ih =>
    obtain ⟨hvisit, hrest⟩ := List.forall_mem_cons.mp hnot
    cases h with
    | nil => exact .nil _
    | skip h => exact ih hrest h
    | alone h => exact absurd List.mem_cons_self hvisit
    | whole below h => exact absurd (List.mem_append_right _ List.mem_cons_self) hvisit

/-- Tasks for other places are not needed. -/
theorem filter {tasks : List Task} {keep : Task → Bool}
    (hnot : ∀ task ∈ tasks, keep task = false → ∀ visit ∈ task.agenda, visit.place.track ∉ line)
    (h : Covers (tasks.flatMap Task.agenda) line) :
    Covers ((tasks.filter keep).flatMap Task.agenda) line := by
  induction tasks generalizing line with
  | nil => exact h
  | cons task tasks ih =>
    obtain ⟨htask, hrest⟩ := List.forall_mem_cons.mp hnot
    rw [List.flatMap_cons] at h
    cases hkeep : keep task with
    | false =>
      rw [List.filter_cons_of_neg (by simp [hkeep])]
      exact ih hrest (h.drop (htask hkeep))
    | true =>
      rw [List.filter_cons_of_pos hkeep, List.flatMap_cons]
      obtain ⟨line₁, line₂, rfl, h₁, h₂⟩ := h.split
      refine h₁.append (ih (fun task' hmem hdrop visit hvisit hin => ?_) h₂)
      exact hrest task' hmem hdrop visit hvisit (List.mem_append_right _ hin)

variable {strict : Strictness} {root : Ref}

/-- A child that a place has is covered by a walk through all its children. -/
theorem children {cs : List Cursor} {c : Cursor} (h : c ∈ cs) (below : List Cursor) :
    Covers (cs.map .whole) (below ++ [c.track]) := by
  induction cs with
  | nil => simp at h
  | cons d cs ih =>
    rcases List.mem_cons.mp h with rfl | h
    · exact .whole below (.nil _)
    · exact .skip (ih h)

/-- Entering a place keeps what is covered. -/
theorem opened {s : Store} (ht : s.Typed strict) {c : Cursor} (hc : c.Live s root)
    {place : Cursor} (h : Covers (.whole place :: visits) c.line) :
    Covers (Visit.opened s place ++ visits) c.line := by
  generalize hline : c.line = line at h
  cases h with
  | nil => exact .nil _
  | skip h => exact h.prepend _
  | @whole _ _ rest below h =>
    obtain ⟨a, habove, htrack, _, _, hbelow⟩ := Cursor.line_split hline
    obtain ⟨r, hr⟩ := (hc.above habove).element_isSome
    have hplace : place.element = some r := by
      rw [← Cursor.element_track, ← htrack, Cursor.element_track, hr]
    rw [Visit.opened, hplace, if_neg (by simp), List.append_assoc]
    by_cases hnil : below = []
    · subst hnil
      exact (Covers.alone h).prepend _
    · -- the line comes from a child of the place
      obtain ⟨below', key, e, rfl, hstep⟩ := hbelow hnil
      obtain ⟨_, r', x, hr', rfl, hholds⟩ := hc.above hstep
      obtain rfl : r' = r := Option.some.inj (hr'.symm.trans hr)
      have hchild : Cursor.step place key (some x) ∈ place.children s := by
        rw [ht.shaped.children_eq hplace]
        exact List.mem_map.mpr ⟨(key, some x), hholds, rfl⟩
      have hsame : (Cursor.step a key (some x)).track =
          (Cursor.step place key (some x)).track := by
        simp only [Cursor.track, htrack]
      rw [hsame]
      exact (children hchild below').append (.alone h)


end Covers

/-! ## Walking again -/

namespace Run

variable {σ : Type} {root : Ref} {strict : Strictness} {run : Run σ}

/-- An element that is not shared has one place. -/
theorem Sound.unique (hrun : run.Sound strict root) {c d : Cursor}
    (hc : c.Live run.workspace.store root) (hd : d.Live run.workspace.store root)
    (helement : c.element = d.element) {r : Ref} (hr : c.element = some r)
    (hown : run.workspace.shares r = false) : c = d :=
  Cursor.Live.unique hrun.intact.acyclic (fun _ _ hp hpc => hrun.intact.shares_holds hp hpc)
    hrun.intact.nodup hc hd hr (helement ▸ hr) hown

/-- What a dropped task visits lies below the place from which it is walked again. -/
theorem Sound.above_of_dropped (hrun : run.Sound strict root) {task : Task}
    (htask : task ∈ run.tasks) {place : Cursor} (hplace : place.Live run.workspace.store root)
    (hroot : task.root = place.element) {visit : Visit} (hvisit : visit ∈ task.agenda)
    {a : Cursor} (ha : a.Live run.workspace.store root) (htrack : visit.place.track = a.track)
    {r : Ref} (hr : a.element = some r) (hown : run.workspace.shares r = false) :
    place.Above a := by
  have hpasses := (hrun.tasks task htask).passes visit hvisit
  rw [← Cursor.passes_track, htrack, Cursor.passes_track, hroot] at hpasses
  obtain ⟨b, habove, helement⟩ := hpasses.above
  obtain ⟨x, hx⟩ := hplace.element_isSome
  have hb := ha.above habove
  have hbown := ha.own_above (fun _ _ hp hpc => hrun.intact.shares_holds hp hpc) hr hown habove
    (helement.trans hx)
  rwa [hrun.unique hb hplace helement (helement.trans hx) hbown] at habove

/-- If a dropped task visits a place of a line, then that place and the start of the line lie below
the place from which it is walked again. -/
theorem Sound.dropped_below (hrun : run.Sound strict root) {task : Task}
    (htask : task ∈ run.tasks) {place : Cursor} (hplace : place.Live run.workspace.store root)
    (hroot : task.root = place.element) {visit : Visit} (hvisit : visit ∈ task.agenda)
    {c : Cursor} (hc : c.Live run.workspace.store root) {r : Ref} (hr : c.element = some r)
    (hown : run.workspace.shares r = false) (hmem : visit.place.track ∈ c.line) :
    place.Above c ∧ place.depth ≤ visit.place.track.depth := by
  obtain ⟨a, ha, htrack⟩ := Cursor.mem_line hmem
  obtain ⟨x, hx⟩ := (hc.above ha).element_isSome
  have hxown := hc.own_above (fun _ _ hp hpc => hrun.intact.shares_holds hp hpc) hr hown ha hx
  have hback := hrun.above_of_dropped htask hplace hroot hvisit (hc.above ha) htrack.symm hx hxown
  rw [← htrack, Cursor.depth_track]
  exact ⟨hback.trans ha, hback.depth_le⟩

/-- Walking again from a place covers everything below it, if what is above it was covered. -/
theorem covers_below (hrun : run.Sound strict root) {place c : Cursor}
    (hc : c.Live run.workspace.store root) (habove : place.Above c) {r : Ref}
    (hr : c.element = some r) (hown : run.workspace.shares r = false)
    (h : Covers run.agenda place.line.tail) : Covers (run.resume place).agenda c.line := by
  have hplace := hc.above habove
  have hagenda : (run.resume place).agenda = Visit.opened run.workspace.store place ++
      (run.tasks.filter (·.root != place.element)).flatMap Task.agenda := by
    rw [agenda, tasks_resume, List.flatMap_cons, agenda_start]
  have hkept : Covers ((run.tasks.filter (·.root != place.element)).flatMap Task.agenda)
      place.line.tail := by
    refine h.filter fun task htask hdropped visit hvisit hmem => ?_
    -- a place above would pass the element of this one and so lie below it
    obtain ⟨x, hx⟩ := hplace.element_isSome
    have hxown := hc.own_above (fun _ _ hp hpc => hrun.intact.shares_holds hp hpc) hr hown
      habove hx
    have hback := hrun.dropped_below htask hplace (by simpa using hdropped) hvisit hplace hx hxown
      (List.mem_of_mem_tail hmem)
    have hdepth := Cursor.depth_lt_of_mem_tail hmem
    omega
  obtain ⟨below, hbelow⟩ := habove.line
  rw [hagenda]
  refine Covers.opened hrun.intact.typed hc ?_
  rw [hbelow, place.line_eq]
  exact .whole below hkept

/-- Walking again from a place keeps what is covered. -/
theorem covers_resume (hrun : run.Sound strict root) {place c : Cursor}
    (hplace : place.Live run.workspace.store root) (hc : c.Live run.workspace.store root) {r : Ref}
    (hr : c.element = some r) (hown : run.workspace.shares r = false)
    (h : Covers run.agenda c.line) : Covers (run.resume place).agenda c.line := by
  by_cases habove : place.Above c
  · refine covers_below hrun hc habove hr hown ?_
    obtain ⟨below, hbelow⟩ := habove.line
    rw [hbelow, place.line_eq] at h
    exact h.suffix.tail
  · rw [agenda, tasks_resume, List.flatMap_cons]
    refine Covers.prepend _ (h.filter fun task htask hdropped visit hvisit hmem => ?_)
    exact habove (hrun.dropped_below htask hplace (by simpa using hdropped) hvisit hc hr hown
      hmem).1

theorem covers_resumeAll (hrun : run.Sound strict root) {places : List Cursor}
    (hplaces : ∀ p ∈ places, p.Live run.workspace.store root) {c : Cursor}
    (hc : c.Live run.workspace.store root) {r : Ref} (hr : c.element = some r)
    (hown : run.workspace.shares r = false) (h : Covers run.agenda c.line) :
    Covers (places.foldl resume run).agenda c.line := by
  induction places generalizing run with
  | nil => exact h
  | cons p places ih =>
    obtain ⟨hp, hrest⟩ := List.forall_mem_cons.mp hplaces
    exact ih (hrun.resume hp.proper) hrest hc hown (covers_resume hrun hp hc hr hown h)

/-- Walking again from several places covers everything below each of them that was covered. -/
theorem covers_resumeAll_below (hrun : run.Sound strict root) {places : List Cursor}
    (hplaces : ∀ p ∈ places, p.Live run.workspace.store root) {place c : Cursor}
    (hmem : place ∈ places) (hc : c.Live run.workspace.store root) (habove : place.Above c)
    {r : Ref} (hr : c.element = some r) (hown : run.workspace.shares r = false)
    (h : Covers run.agenda place.line) : Covers (places.foldl resume run).agenda c.line := by
  induction places generalizing run with
  | nil => simp at hmem
  | cons p places ih =>
    obtain ⟨hp, hrest⟩ := List.forall_mem_cons.mp hplaces
    have hresume := hrun.resume hp.proper
    rcases List.mem_cons.mp hmem with rfl | hmem
    · rw [place.line_eq] at h
      exact covers_resumeAll hresume hrest hc hr hown
        (covers_below hrun hc habove hr hown h.tail)
    · have hplace := hc.above habove
      obtain ⟨x, hx⟩ := hplace.element_isSome
      have hxown := hc.own_above (fun _ _ hp hpc => hrun.intact.shares_holds hp hpc) hr hown
        habove hx
      exact ih hresume hrest hmem hc hown (covers_resume hrun hp hplace hx hxown h)


end Run

end ScriptSimplifier
