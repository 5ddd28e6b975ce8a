import ScriptSimplifier.Proofs.Places
import ScriptSimplifier.Walk

/-!
# What a walk has done

A walk may be interleaved with edits: each of its motions is made in the state that the tree has at
that time (`Walk.History`).  The children of a place are noted when the walk enters it, so whatever
is done to the tree after that, the walk goes through these in order and leaves each one before the
place itself.  The invariant is `Walk.Recorded`: the motions so far read as brackets are open at the
stops of the walk, and what a stop has still ahead is what it noted without what was entered below
it.
-/

namespace ScriptSimplifier

/-- The place that a motion enters. -/
def Motion.entered? : Motion → Option Cursor
  | .entered place => some place
  | _ => none

/-- The place that a motion visits. -/
def Motion.visited? : Motion → Option Cursor
  | .visited place => some place
  | _ => none

/-- A place one step down is deeper by one. -/
theorem Cursor.depth_of_parent {c p : Cursor} (h : c.parent? = some p) :
    c.depth = p.depth + 1 := by
  cases c with
  | root e => cases h
  | step parent key e =>
    obtain rfl := Option.some.inj h
    rfl

namespace Walk

/-! ## Logs -/

/-- The places that were entered, in order. -/
def entered (log : List (Store × Motion)) : List Cursor := log.filterMap (·.2.entered?)

/-- The places that were visited, in order. -/
def visited (log : List (Store × Motion)) : List Cursor := log.filterMap (·.2.visited?)

/-- The places one step down from another one. -/
def childrenIn (places : List Cursor) (p : Cursor) : List Cursor :=
  places.filter (·.parent? = some p)

/-- The places that hold something. -/
def occupied (places : List Cursor) : List Cursor := places.filter (·.element.isSome)

/-- The places that are open after motions, the innermost first: what is entered is opened, and only
the innermost one may be visited, which closes it. -/
def openAfter : List Cursor → List Motion → Option (List Cursor)
  | places, [] => some places
  | places, .entered p :: rest => openAfter (p :: places) rest
  | places, .passed :: rest => openAfter places rest
  | p :: places, .visited q :: rest => if q = p then openAfter places rest else none
  | [], .visited _ :: _ => none

theorem openAfter_append (places : List Cursor) (ms ms' : List Motion) :
    openAfter places (ms ++ ms') = (openAfter places ms).bind (openAfter · ms') := by
  induction ms generalizing places with
  | nil => rfl
  | cons m rest ih =>
    cases m with
    | entered p => exact ih (p :: places)
    | passed => exact ih places
    | visited q =>
      cases places with
      | nil => rfl
      | cons p places =>
        rw [List.cons_append, openAfter, openAfter]
        split
        · exact ih places
        · rfl

section logs

variable (log : List (Store × Motion)) (s : Store) (p q : Cursor)

@[simp] theorem entered_entered : entered (log ++ [(s, .entered q)]) = entered log ++ [q] := by
  simp [entered, Motion.entered?]

@[simp] theorem entered_passed : entered (log ++ [(s, .passed)]) = entered log := by
  simp [entered, Motion.entered?]

@[simp] theorem entered_visited : entered (log ++ [(s, .visited q)]) = entered log := by
  simp [entered, Motion.entered?]

@[simp] theorem visited_entered : visited (log ++ [(s, .entered q)]) = visited log := by
  simp [visited, Motion.visited?]

@[simp] theorem visited_passed : visited (log ++ [(s, .passed)]) = visited log := by
  simp [visited, Motion.visited?]

@[simp] theorem visited_visited : visited (log ++ [(s, .visited q)]) = visited log ++ [q] := by
  simp [visited, Motion.visited?]

@[simp] theorem childrenIn_append (places more : List Cursor) :
    childrenIn (places ++ more) p = childrenIn places p ++ childrenIn more p :=
  List.filter_append ..

variable {log s p q}

theorem childrenIn_cons_of_parent {places : List Cursor} (h : q.parent? = some p) :
    childrenIn (q :: places) p = q :: childrenIn places p :=
  List.filter_cons_of_pos (by simpa using h)

theorem childrenIn_cons_of_ne {places : List Cursor} (h : q.parent? ≠ some p) :
    childrenIn (q :: places) p = childrenIn places p :=
  List.filter_cons_of_neg (by simpa using h)

theorem childrenIn_eq_nil {places : List Cursor} (h : ∀ q ∈ places, q.parent? ≠ some p) :
    childrenIn places p = [] :=
  List.filter_eq_nil_iff.mpr fun q hq => by simpa using h q hq

/-- Something behind others is one step down from a place, or not. -/
theorem childrenIn_concat {places : List Cursor} (h : q.parent? = some p) :
    childrenIn (places ++ [q]) p = childrenIn places p ++ [q] := by
  rw [childrenIn_append, childrenIn_cons_of_parent h]
  rfl

theorem childrenIn_concat_of_ne {places : List Cursor} (h : q.parent? ≠ some p) :
    childrenIn (places ++ [q]) p = childrenIn places p := by
  rw [childrenIn_append, childrenIn_cons_of_ne h]
  exact List.append_nil _

theorem occupied_cons_of_isSome {places : List Cursor} (h : q.element.isSome = true) :
    occupied (q :: places) = q :: occupied places := by
  simp [occupied, h]

theorem occupied_cons_of_empty {places : List Cursor} (h : q.element.isSome = false) :
    occupied (q :: places) = occupied places := by
  simp [occupied, h]

theorem mem_entered : p ∈ entered log ↔ ∃ s, (s, Motion.entered p) ∈ log := by
  constructor
  · intro h
    obtain ⟨⟨s, m⟩, hmem, hm⟩ := List.mem_filterMap.mp h
    cases m with
    | entered p' =>
      obtain rfl := Option.some.inj hm
      exact ⟨s, hmem⟩
    | passed => cases hm
    | visited p' => cases hm
  · rintro ⟨s, hmem⟩
    exact List.mem_filterMap.mpr ⟨_, hmem, rfl⟩

/-- Unless a motion enters a place, the place was entered before. -/
theorem mem_of_ne {m : Motion} {s' : Store} (hm : m ≠ .entered p)
    (h : (s', Motion.entered p) ∈ log ++ [(s, m)]) : (s', Motion.entered p) ∈ log := by
  rcases List.mem_append.mp h with h | h
  · exact h
  · exact absurd (Prod.mk.inj (List.mem_singleton.mp h)).2.symm hm

end logs

/-! ## Motions -/

/-- What a motion of a walk can be. -/
inductive Advances (s : Store) (w : Walk) : Motion → Walk → Prop
  | entered {p q : Cursor} {ahead : List Cursor} {outer : List Stop} :
      w.stops = ⟨p, q :: ahead⟩ :: outer → q.element.isSome = true →
      Advances s w (.entered q) ⟨⟨q, q.children s⟩ :: ⟨p, ahead⟩ :: outer, w.count⟩
  | passed {p q : Cursor} {ahead : List Cursor} {outer : List Stop} :
      w.stops = ⟨p, q :: ahead⟩ :: outer → q.element.isSome = false →
      Advances s w .passed ⟨⟨p, ahead⟩ :: outer, w.count⟩
  | visited {p : Cursor} {outer : List Stop} : w.stops = ⟨p, []⟩ :: outer →
      Advances s w (.visited p) ⟨outer, w.count + 1⟩

theorem advance_cases {s : Store} {w w' : Walk} {m : Motion} (h : w.advance s = some (m, w')) :
    Advances s w m w' := by
  unfold advance at h
  split at h
  · cases h
  · rename_i p q ahead outer hstops
    cases hq : q.element with
    | none =>
      obtain ⟨rfl, rfl⟩ : Motion.passed = m ∧ (⟨⟨p, ahead⟩ :: outer, w.count⟩ : Walk) = w' := by
        simpa [enter, hq] using h
      exact .passed hstops (by rw [hq]; rfl)
    | some r =>
      obtain ⟨rfl, rfl⟩ : Motion.entered q = m ∧
          (⟨⟨q, q.children s⟩ :: ⟨p, ahead⟩ :: outer, w.count⟩ : Walk) = w' := by
        simpa [enter, hq] using h
      exact .entered hstops (by rw [hq]; rfl)
  · rename_i p outer hstops
    obtain ⟨rfl, rfl⟩ : Motion.visited p = m ∧ (⟨outer, w.count + 1⟩ : Walk) = w' := by
      simpa using h
    exact .visited hstops

/-! ## Histories -/

/-- What a walk through everything below a place has done up to some point.  Each motion comes with
the state of the tree in which it was made, so there may be edits before any of them, in a call for
the next place as well as between two calls.  The first place is entered at the start. -/
inductive History (place : Cursor) : List (Store × Motion) → Walk → Prop
  | started (s : Store) :
      History place (if place.element.isNone then [] else [(s, .entered place)]) (start s place)
  | moved {log : List (Store × Motion)} {w w' : Walk} {s : Store} {m : Motion} :
      History place log w → w.advance s = some (m, w') → History place (log ++ [(s, m)]) w'

variable {place : Cursor} {log : List (Store × Motion)} {w w' : Walk}

/-- What the log of a walk says about it. -/
structure Recorded (place : Cursor) (log : List (Store × Motion)) (w : Walk) : Prop where
  /-- The motions are nested, and the stops are the places that are open. -/
  nested : openAfter [] (log.map Prod.snd) = some (w.stops.map Stop.place)
  count : w.count = (visited log).length
  /-- What was entered was visited or is a stop, but not both. -/
  split : (entered log).Perm (visited log ++ w.stops.map Stop.place)
  nodup : (entered log).Nodup
  /-- Everything but the first place was entered from above. -/
  rooted : ∀ q ∈ entered log,
    q = place ∨ place.depth < q.depth ∧ ∃ p ∈ entered log, q.parent? = some p
  /-- The stops lie one below the other. -/
  deeper : (w.stops.map Stop.place).Pairwise (·.depth > ·.depth)
  ahead : ∀ stop ∈ w.stops, ∀ d ∈ stop.ahead, d.parent? = some stop.place
  /-- A stop has ahead what it noted and the walk has not entered. -/
  going : ∀ stop ∈ w.stops, ∀ s, (s, Motion.entered stop.place) ∈ log →
    childrenIn (entered log) stop.place ++ occupied stop.ahead =
      occupied (stop.place.children s)
  /-- Below a visited place, everything that was noted was entered. -/
  done : ∀ p ∈ visited log, ∀ s, (s, Motion.entered p) ∈ log →
    childrenIn (entered log) p = occupied (p.children s)
  /-- The children of a place are visited in the order in which they were entered. -/
  order : ∀ p, childrenIn (visited log) p ++ childrenIn (w.stops.map Stop.place) p =
    childrenIn (entered log) p

namespace Recorded

variable {s : Store} {p q : Cursor} {ahead : List Cursor} {outer : List Stop}

theorem nodup_split (h : Recorded place log w) :
    (visited log ++ w.stops.map Stop.place).Nodup :=
  h.split.nodup_iff.mp h.nodup

theorem deep (h : Recorded place log w) (hq : q ∈ entered log) : place.depth ≤ q.depth := by
  rcases h.rooted q hq with rfl | ⟨hlt, -⟩
  · exact Nat.le_refl _
  · exact Nat.le_of_lt hlt

/-! ### The innermost stop -/

theorem mem_of_stops (h : Recorded place log w) (hstops : w.stops = ⟨p, ahead⟩ :: outer) :
    p ∈ entered log := by
  refine h.split.mem_iff.mpr (List.mem_append_right _ ?_)
  rw [hstops]
  exact List.mem_cons_self

/-- The stops around the innermost one are less deep. -/
theorem outer_depth (h : Recorded place log w) (hstops : w.stops = ⟨p, ahead⟩ :: outer) :
    ∀ x ∈ outer.map Stop.place, x.depth < p.depth := by
  have hdeeper := h.deeper
  rw [hstops, List.map_cons, List.pairwise_cons] at hdeeper
  exact hdeeper.1

/-- No stop is one step down from the innermost one. -/
theorem innermost (h : Recorded place log w) (hstops : w.stops = ⟨p, ahead⟩ :: outer) :
    childrenIn (w.stops.map Stop.place) p = [] := by
  refine childrenIn_eq_nil fun y hy hyp => ?_
  have hdepth := Cursor.depth_of_parent hyp
  rw [hstops] at hy
  rcases List.mem_cons.mp hy with rfl | hy
  · exact absurd hdepth (Nat.ne_of_lt (Nat.lt_succ_self _))
  · have := h.outer_depth hstops y hy
    omega

/-- What is ahead of the innermost stop is one step down from it. -/
theorem parent_ahead (h : Recorded place log w) (hstops : w.stops = ⟨p, ahead⟩ :: outer) :
    ∀ d ∈ ahead, d.parent? = some p :=
  h.ahead ⟨p, ahead⟩ (hstops ▸ List.mem_cons_self)

theorem parent_next (h : Recorded place log w) (hstops : w.stops = ⟨p, q :: ahead⟩ :: outer) :
    q.parent? = some p :=
  h.parent_ahead hstops q List.mem_cons_self

/-- The innermost stop has ahead what it noted and the walk has not entered. -/
theorem going_innermost (h : Recorded place log w) (hstops : w.stops = ⟨p, ahead⟩ :: outer)
    (hs : (s, Motion.entered p) ∈ log) :
    childrenIn (entered log) p ++ occupied ahead = occupied (p.children s) :=
  h.going ⟨p, ahead⟩ (hstops ▸ List.mem_cons_self) s hs

/-- A place where nothing is ahead has seen everything that it noted. -/
theorem finished (h : Recorded place log w) (hstops : w.stops = ⟨p, []⟩ :: outer)
    (hs : (s, Motion.entered p) ∈ log) :
    childrenIn (entered log) p = occupied (p.children s) := by
  rw [← h.going_innermost hstops hs]
  exact (List.append_nil _).symm

/-- A place that is noted and not entered yet is new. -/
theorem fresh (h : Recorded place log w) (hstops : w.stops = ⟨p, q :: ahead⟩ :: outer)
    (hq : q.element.isSome = true) : q ∉ entered log := by
  intro hmem
  obtain ⟨s, hs⟩ := mem_entered.mp (h.mem_of_stops hstops)
  have hnodup : (occupied (p.children s)).Nodup := (Cursor.nodup_children s p).filter _
  rw [← h.going_innermost hstops hs] at hnodup
  have hbelow : q ∈ childrenIn (entered log) p :=
    List.mem_filter.mpr ⟨hmem, by simpa using h.parent_next hstops⟩
  have hahead : q ∈ occupied (q :: ahead) := List.mem_filter.mpr ⟨List.mem_cons_self, hq⟩
  exact List.disjoint_of_nodup_append hnodup hbelow hahead

/-- Nothing was entered below a place that was not entered itself. -/
theorem childrenIn_fresh (h : Recorded place log w) (hq : q ∉ entered log)
    (hdeep : place.depth ≤ q.depth) : childrenIn (entered log) q = [] := by
  refine childrenIn_eq_nil fun x hx hparent => ?_
  rcases h.rooted x hx with rfl | ⟨-, p, hp, hxp⟩
  · have := Cursor.depth_of_parent hparent
    omega
  · obtain rfl := Option.some.inj (hparent.symm.trans hxp)
    exact hq hp

/-! ### Entering a place -/

section entering

variable (h : Recorded place log w) (hstops : w.stops = ⟨p, q :: ahead⟩ :: outer)
  (hq : q.element.isSome = true) (s : Store)

include h hstops

theorem entered_rooted : ∀ x ∈ entered (log ++ [(s, .entered q)]),
    x = place ∨ place.depth < x.depth ∧
      ∃ y ∈ entered (log ++ [(s, .entered q)]), x.parent? = some y := by
  intro x hx
  have hp := h.mem_of_stops hstops
  rw [entered_entered] at hx ⊢
  rcases List.mem_append.mp hx with hx | hx
  · exact (h.rooted x hx).imp_right fun ⟨hlt, y, hy, hxy⟩ =>
      ⟨hlt, y, List.mem_append_left _ hy, hxy⟩
  · obtain rfl := List.mem_singleton.mp hx
    have hparent := h.parent_next hstops
    have hdepth := Cursor.depth_of_parent hparent
    have hdeep := h.deep hp
    exact .inr ⟨by omega, p, List.mem_append_left _ hp, hparent⟩

theorem entered_deeper : (q :: p :: outer.map Stop.place).Pairwise (·.depth > ·.depth) := by
  have hdepth := Cursor.depth_of_parent (h.parent_next hstops)
  have hdeeper := h.deeper
  rw [hstops] at hdeeper
  refine List.pairwise_cons.mpr ⟨fun x hx => ?_, hdeeper⟩
  rcases List.mem_cons.mp hx with rfl | hx
  · omega
  · have := h.outer_depth hstops x hx
    omega

theorem childrenIn_entered_of_ne {x : Cursor} (hx : x ≠ p) :
    childrenIn (entered (log ++ [(s, .entered q)])) x = childrenIn (entered log) x := by
  rw [entered_entered, childrenIn_concat_of_ne]
  rw [h.parent_next hstops]
  exact fun heq => hx (Option.some.inj heq).symm

include hq

/-- Another place that was entered was entered before. -/
theorem ne_of_mem {x : Cursor} (hx : x ∈ entered log) : Motion.entered q ≠ .entered x := by
  intro heq
  exact h.fresh hstops hq (Motion.entered.inj heq ▸ hx)

/-- The new stop has everything ahead, and the one around it has one place less ahead. -/
theorem entered_going :
    ∀ stop ∈ (⟨q, q.children s⟩ : Stop) :: ⟨p, ahead⟩ :: outer,
      ∀ s', (s', Motion.entered stop.place) ∈ log ++ [(s, .entered q)] →
      childrenIn (entered (log ++ [(s, .entered q)])) stop.place ++ occupied stop.ahead =
        occupied (stop.place.children s') := by
  intro stop hmem s' hs'
  have hp := h.mem_of_stops hstops
  have hnew := h.fresh hstops hq
  rcases List.mem_cons.mp hmem with rfl | hmem
  · -- the new stop was entered just now, and nothing below it before
    obtain rfl : s' = s := by
      rcases List.mem_append.mp hs' with hs' | hs'
      · exact absurd (mem_entered.mpr ⟨s', hs'⟩) hnew
      · exact (Prod.mk.inj (List.mem_singleton.mp hs')).1
    have hne : q ≠ p := fun heq => hnew (heq ▸ hp)
    have hdepth := Cursor.depth_of_parent (h.parent_next hstops)
    have hdeep := h.deep hp
    rw [h.childrenIn_entered_of_ne hstops s' hne, h.childrenIn_fresh hnew (by omega),
      List.nil_append]
  · rcases List.mem_cons.mp hmem with rfl | hmem
    · have hgoing := h.going_innermost hstops (mem_of_ne (h.ne_of_mem hstops hq hp) hs')
      rw [occupied_cons_of_isSome hq] at hgoing
      rw [entered_entered, childrenIn_concat (h.parent_next hstops), List.append_assoc, ← hgoing]
      rfl
    · -- other stops are not as deep, so the new one is not one step down from them
      have hstop : stop ∈ w.stops := hstops ▸ List.mem_cons_of_mem _ hmem
      have hentered : stop.place ∈ entered log :=
        h.split.mem_iff.mpr (List.mem_append_right _ (List.mem_map_of_mem hstop))
      have hlt := h.outer_depth hstops stop.place (List.mem_map_of_mem hmem)
      rw [h.childrenIn_entered_of_ne hstops s fun heq => by rw [heq] at hlt; omega]
      exact h.going stop hstop s' (mem_of_ne (h.ne_of_mem hstops hq hentered) hs')

/-- The stop around the new one was not visited. -/
theorem entered_done : ∀ x ∈ visited log,
    ∀ s', (s', Motion.entered x) ∈ log ++ [(s, .entered q)] →
      childrenIn (entered (log ++ [(s, .entered q)])) x = occupied (x.children s') := by
  intro x hx s' hs'
  have hentered : x ∈ entered log := h.split.mem_iff.mpr (List.mem_append_left _ hx)
  have hne : x ≠ p := by
    rintro rfl
    refine List.disjoint_of_nodup_append h.nodup_split hx ?_
    rw [hstops]
    exact List.mem_cons_self
  rw [h.childrenIn_entered_of_ne hstops s hne]
  exact h.done x hx s' (mem_of_ne (h.ne_of_mem hstops hq hentered) hs')

omit hq in
theorem entered_order (x : Cursor) :
    childrenIn (visited log) x ++ childrenIn (q :: w.stops.map Stop.place) x =
      childrenIn (entered (log ++ [(s, .entered q)])) x := by
  have horder := h.order x
  have hparent := h.parent_next hstops
  by_cases hx : x = p
  · subst hx
    rw [h.innermost hstops, List.append_nil] at horder
    rw [entered_entered, childrenIn_concat hparent, ← horder, childrenIn_cons_of_parent hparent,
      h.innermost hstops]
  · rw [h.childrenIn_entered_of_ne hstops s hx, childrenIn_cons_of_ne, horder]
    rw [hparent]
    exact fun heq => hx (Option.some.inj heq).symm

theorem entered_step : Recorded place (log ++ [(s, .entered q)])
    ⟨⟨q, q.children s⟩ :: ⟨p, ahead⟩ :: outer, w.count⟩ where
  nested := by
    rw [List.map_append, openAfter_append, h.nested, hstops]
    rfl
  count := by
    rw [visited_entered]
    exact h.count
  split := by
    have hsplit := h.split.append_right [q]
    rw [hstops, List.append_assoc] at hsplit
    rw [entered_entered, visited_entered]
    exact hsplit.trans (List.Perm.append_left _ (List.perm_append_singleton q _))
  nodup := by
    rw [entered_entered]
    exact List.nodup_append'.mpr ⟨h.nodup, List.nodup_singleton q,
      List.disjoint_singleton.mpr (h.fresh hstops hq)⟩
  rooted := h.entered_rooted hstops s
  deeper := h.entered_deeper hstops
  ahead := by
    intro stop hmem d hd
    rcases List.mem_cons.mp hmem with rfl | hmem
    · obtain ⟨key, rfl⟩ := Cursor.mem_children hd
      rfl
    · rcases List.mem_cons.mp hmem with rfl | hmem
      · exact h.parent_ahead hstops d (List.mem_cons_of_mem _ hd)
      · exact h.ahead stop (hstops ▸ List.mem_cons_of_mem _ hmem) d hd
  going := h.entered_going hstops hq s
  done := by
    rw [visited_entered]
    exact h.entered_done hstops hq s
  order := by
    intro x
    have horder := h.entered_order hstops s x
    rw [hstops] at horder
    rw [visited_entered]
    exact horder

end entering

/-! ### The other motions -/

/-- Passing an empty place. -/
theorem passed_step (h : Recorded place log w) (hstops : w.stops = ⟨p, q :: ahead⟩ :: outer)
    (hq : q.element.isSome = false) (s : Store) :
    Recorded place (log ++ [(s, .passed)]) ⟨⟨p, ahead⟩ :: outer, w.count⟩ := by
  have hplaces : (⟨p, ahead⟩ :: outer).map Stop.place = w.stops.map Stop.place := by
    rw [hstops]
    rfl
  have hevent : ∀ {x s'}, (s', Motion.entered x) ∈ log ++ [(s, .passed)] →
      (s', Motion.entered x) ∈ log := mem_of_ne (by simp)
  constructor
  case nested =>
    rw [List.map_append, openAfter_append, h.nested, hplaces]
    rfl
  case deeper =>
    rw [hplaces]
    exact h.deeper
  case ahead =>
    intro stop hmem d hd
    rcases List.mem_cons.mp hmem with rfl | hmem
    · exact h.parent_ahead hstops d (List.mem_cons_of_mem _ hd)
    · exact h.ahead stop (hstops ▸ List.mem_cons_of_mem _ hmem) d hd
  all_goals simp only [entered_passed, visited_passed, hplaces]
  case count => exact h.count
  case split => exact h.split
  case nodup => exact h.nodup
  case rooted => exact h.rooted
  case order => exact h.order
  case done => exact fun x hx s' hs' => h.done x hx s' (hevent hs')
  case going =>
    intro stop hmem s' hs'
    rcases List.mem_cons.mp hmem with rfl | hmem
    · have hgoing := h.going_innermost hstops (hevent hs')
      rwa [occupied_cons_of_empty hq] at hgoing
    · exact h.going stop (hstops ▸ List.mem_cons_of_mem _ hmem) s' (hevent hs')

/-- Visiting a place after everything below it. -/
theorem visited_step (h : Recorded place log w) (hstops : w.stops = ⟨p, []⟩ :: outer)
    (s : Store) : Recorded place (log ++ [(s, .visited p)]) ⟨outer, w.count + 1⟩ := by
  have hevent : ∀ {x s'}, (s', Motion.entered x) ∈ log ++ [(s, .visited p)] →
      (s', Motion.entered x) ∈ log := mem_of_ne (by simp)
  have houter : ∀ stop ∈ outer, stop ∈ w.stops := fun stop hmem =>
    hstops ▸ List.mem_cons_of_mem _ hmem
  constructor
  case nested =>
    rw [List.map_append, openAfter_append, h.nested, hstops]
    simp [openAfter]
  case deeper =>
    have hdeeper := h.deeper
    rw [hstops] at hdeeper
    exact (List.pairwise_cons.mp hdeeper).2
  case ahead => exact fun stop hmem => h.ahead stop (houter stop hmem)
  all_goals simp only [entered_visited, visited_visited]
  case count =>
    rw [List.length_append, ← h.count]
    rfl
  case split =>
    have hsplit := h.split
    rw [hstops, List.map_cons, List.append_cons] at hsplit
    exact hsplit
  case nodup => exact h.nodup
  case rooted => exact h.rooted
  case going => exact fun stop hmem s' hs' => h.going stop (houter stop hmem) s' (hevent hs')
  case done =>
    intro x hx s' hs'
    rcases List.mem_append.mp hx with hx | hx
    · exact h.done x hx s' (hevent hs')
    · -- the place itself: what is below it has been visited before
      obtain rfl := List.mem_singleton.mp hx
      exact h.finished hstops (hevent hs')
  case order =>
    intro x
    have horder := h.order x
    rw [hstops, List.map_cons, ← List.singleton_append, childrenIn_append,
      ← List.append_assoc] at horder
    rw [childrenIn_append]
    exact horder

end Recorded

/-- What is recorded of a walk that has just started. -/
theorem recorded_start (s : Store) (place : Cursor) :
    Recorded place (if place.element.isNone then [] else [(s, .entered place)])
      (start s place) := by
  cases hplace : place.element with
  | none =>
    have hstart : start s place = ⟨[], 0⟩ := by simp [start, enter, hplace]
    rw [hstart]
    exact ⟨rfl, rfl, .nil, .nil, fun _ h => (nomatch h), .nil, fun _ h => (nomatch h),
      fun _ h => (nomatch h), fun _ h => (nomatch h), fun _ => rfl⟩
  | some r =>
    have hstart : start s place = ⟨[⟨place, place.children s⟩], 0⟩ := by
      simp [start, enter, hplace]
    rw [hstart, if_neg (by simp)]
    have hself : place.parent? ≠ some place := fun heq => by
      have := Cursor.depth_of_parent heq
      omega
    have hentered : entered [(s, Motion.entered place)] = [place] := rfl
    refine ⟨rfl, rfl, .refl _, List.nodup_singleton _, ?_, List.pairwise_singleton _ _, ?_, ?_,
      fun _ h => (nomatch h), fun _ => rfl⟩
    · intro q hq
      exact .inl (List.mem_singleton.mp hq)
    · intro stop hmem d hd
      obtain rfl := List.mem_singleton.mp hmem
      obtain ⟨key, rfl⟩ := Cursor.mem_children hd
      rfl
    · intro stop hmem s' hs'
      obtain rfl := List.mem_singleton.mp hmem
      obtain ⟨rfl, -⟩ := Prod.mk.inj (List.mem_singleton.mp hs')
      rw [hentered, childrenIn_cons_of_ne hself]
      rfl

/-- Every walk keeps to its record, whatever happens to the tree. -/
theorem History.recorded (h : History place log w) : Recorded place log w := by
  induction h with
  | started s => exact recorded_start s place
  | @moved log w w' s m _ hadvance ih =>
    cases advance_cases hadvance with
    | entered hstops hq => exact ih.entered_step hstops hq s
    | passed hstops hq => exact ih.passed_step hstops hq s
    | visited hstops => exact ih.visited_step hstops s

/-! ## Visits -/

/-- A walk that visits a place had a history before that. -/
theorem History.before_visit (h : History place log w) {before after : List (Store × Motion)}
    {s : Store} {p : Cursor} (hlog : log = before ++ (s, .visited p) :: after) :
    ∃ w w', History place before w ∧ w.advance s = some (.visited p, w') := by
  induction h generalizing after with
  | started s' =>
    have hmem : (s, Motion.visited p) ∈
        (if place.element.isNone then [] else [(s', Motion.entered place)]) := by
      rw [hlog]
      exact List.mem_append_right _ List.mem_cons_self
    split at hmem
    · cases hmem
    · cases (Prod.mk.inj (List.mem_singleton.mp hmem)).2
  | @moved log w w' s' m hhistory hadvance ih =>
    rcases List.eq_nil_or_concat after with rfl | ⟨after, last, rfl⟩
    · obtain ⟨rfl, hlast⟩ := List.append_inj' hlog rfl
      obtain ⟨rfl, rfl⟩ := Prod.mk.inj (List.cons.inj hlast).1
      exact ⟨w, w', hhistory, hadvance⟩
    · rw [List.concat_eq_append, ← List.cons_append, ← List.append_assoc] at hlog
      exact ih (List.append_inj' hlog rfl).1

/-- A visited place was entered once before and is visited once, and what it noted when it was
entered has been entered and visited in order before. -/
theorem History.visit (h : History place log w) {before after : List (Store × Motion)}
    {s' : Store} {p : Cursor} (hlog : log = before ++ (s', .visited p) :: after) :
    ((entered before).count p = 1 ∧ p ∉ entered after) ∧
      (p ∉ visited before ∧ p ∉ visited after) ∧
      ∃ s, (s, Motion.entered p) ∈ before ∧
        childrenIn (entered log) p = occupied (p.children s) ∧
        childrenIn (visited before) p = occupied (p.children s) := by
  -- the record before the visit says what came before it, the one at the end what stays true
  obtain ⟨w₀, w₁, hbefore, hadvance⟩ := h.before_visit hlog
  obtain ⟨outer, hstops⟩ : ∃ outer, w₀.stops = ⟨p, []⟩ :: outer := by
    cases advance_cases hadvance with
    | visited hstops => exact ⟨_, hstops⟩
  have hthen := hbefore.recorded
  have hnow := h.recorded
  have hmem := hthen.mem_of_stops hstops
  obtain ⟨s, hs⟩ := mem_entered.mp hmem
  have hentered : entered log = entered before ++ entered after := by
    simp [hlog, entered, Motion.entered?]
  have hvisited : visited log = visited before ++ p :: visited after := by
    simp [hlog, visited, Motion.visited?]
  have hnodup : (visited log).Nodup := (List.nodup_append'.mp hnow.nodup_split).1
  have horder := hthen.order p
  rw [hthen.innermost hstops, List.append_nil, hthen.finished hstops hs] at horder
  refine ⟨⟨?_, ?_⟩, ⟨?_, ?_⟩, s, hs, ?_, horder⟩
  · exact List.count_eq_one_of_mem hthen.nodup hmem
  · have hdisjoint := hnow.nodup
    rw [hentered] at hdisjoint
    exact fun hafter => List.disjoint_of_nodup_append hdisjoint hmem hafter
  · rw [hvisited] at hnodup
    exact fun hearlier => List.disjoint_of_nodup_append hnodup hearlier List.mem_cons_self
  · rw [hvisited] at hnodup
    exact (List.nodup_cons.mp (List.nodup_append'.mp hnodup).2.1).1
  · refine hnow.done p ?_ s ?_
    · rw [hvisited]
      exact List.mem_append_right _ List.mem_cons_self
    · rw [hlog]
      exact List.mem_append_left _ hs

/-- Below a place that was entered, the walk goes through what the place noted, in order. -/
theorem History.begun (h : History place log w) {s : Store} {p : Cursor}
    (hp : (s, Motion.entered p) ∈ log) :
    childrenIn (entered log) p <+: occupied (p.children s) := by
  have hrecorded := h.recorded
  rcases List.mem_append.mp (hrecorded.split.mem_iff.mp (mem_entered.mpr ⟨s, hp⟩)) with hmem | hmem
  · rw [hrecorded.done p hmem s hp]
  · obtain ⟨stop, hstop, rfl⟩ := List.mem_map.mp hmem
    exact ⟨_, hrecorded.going stop hstop s hp⟩

/-- A call for the next place, in one state of the tree, makes motions up to the first visit. -/
theorem History.next (h : History place log w) {s : Store} {fuel : Nat} {p : Cursor}
    (hnext : w.next s fuel = some (p, w')) :
    ∃ more, History place (log ++ more ++ [(s, .visited p)]) w' ∧ visited more = [] := by
  induction fuel generalizing log w with
  | zero => cases hnext
  | succ fuel ih =>
    unfold Walk.next at hnext
    split at hnext
    · cases hnext
    · rename_i p' w₁ hadvance
      obtain ⟨rfl, rfl⟩ := Prod.mk.inj (Option.some.inj hnext)
      refine ⟨[], ?_, rfl⟩
      rw [List.append_nil]
      exact h.moved hadvance
    · rename_i m w₁ hother hadvance
      obtain ⟨more, hmore, hvisited⟩ := ih (h.moved hadvance) hnext
      refine ⟨(s, m) :: more, ?_, ?_⟩
      · rw [List.append_cons log]
        exact hmore
      · cases m with
        | entered q => exact hvisited
        | passed => exact hvisited
        | visited q => exact absurd rfl (hother q)

end Walk

end ScriptSimplifier
