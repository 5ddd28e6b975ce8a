import ScriptSimplifier.Proofs.Pass.NodeWalks
import ScriptSimplifier.Proofs.Pass.Termination
import ScriptSimplifier.Proofs.Walk.History

/-!
# Walks and recursion

A walk goes through a tree with a list of stops, and without edits it does what a recursion over the
tree does: it enters places in pre-order and visits them in post-order (`Tour.recursive`).  What a
walk has still to do is read off its agenda, and every motion takes the head of that.  A call for
the next place goes down a chain of elements, which bounds the motions that it can take
(`Walk.exists_next`).
-/

namespace ScriptSimplifier

/-! ## The recursive walk -/

namespace Tour

/-- Everything at and below a place, down to a depth: a place is entered before everything below it
and visited after that. -/
def within (s : Store) : (depth : Nat) → Cursor → Tour
  | 0, _ => ⟨[], []⟩
  | depth + 1, c =>
    if c.element.isNone then ⟨[], []⟩
    else
      ⟨c :: (c.children s).flatMap fun d => (within s depth d).entered,
        ((c.children s).flatMap fun d => (within s depth d).visited) ++ [c]⟩

/-- Everything at and below a place.  A path without repetition is not longer than the number of
elements, so the depth cuts nothing off. -/
def recursive (s : Store) (place : Cursor) : Tour := within s (s.cells.size + 2) place

variable {s : Store} {c : Cursor}

theorem within_empty (hc : c.element = none) (depth : Nat) : within s depth c = ⟨[], []⟩ := by
  cases depth with
  | zero => rfl
  | succ depth => simp [within, hc]

/-- If one more level makes a difference, there is a chain down to that level. -/
theorem within_ne {depth : Nat} {r : Ref} (hc : c.element = some r)
    (h : within s depth c ≠ within s (depth + 1) c) :
    ∃ l, l.length = depth ∧ (r :: l).IsChain s.Holds := by
  induction depth generalizing c r with
  | zero => exact ⟨[], rfl, by simp⟩
  | succ depth ih =>
    -- some child makes the difference
    obtain ⟨d, hd, hne⟩ : ∃ d ∈ c.children s, within s depth d ≠ within s (depth + 1) d := by
      by_contra hall
      push Not at hall
      have hall' : ∀ f : Tour → List Cursor, (c.children s).flatMap (fun d => f (within s depth d)) =
          (c.children s).flatMap fun d => f (within s (depth + 1) d) :=
        fun f => List.flatMap_congr fun d hd => by rw [hall d hd]
      apply h
      rw [within, within, hall' entered, hall' visited]
    obtain ⟨key, rfl⟩ := Cursor.mem_children hd
    cases hx : (c.child s key).element with
    | none => exact absurd ((within_empty hx _).trans (within_empty hx _).symm) hne
    | some x =>
      obtain ⟨l, hlength, hl⟩ := ih hx hne
      refine ⟨x :: l, by simp [hlength], List.isChain_cons_cons.mpr ⟨?_, hl⟩⟩
      have hbelow : Cursor.elementBelow s c.element key = some x := hx
      rw [hc] at hbelow
      exact Cursor.holds_elementBelow hbelow

/-- The equation of the recursive walk. -/
theorem recursive_eq (hs : s.Acyclic) (c : Cursor) :
    recursive s c =
      if c.element.isNone then ⟨[], []⟩
      else
        ⟨c :: (c.children s).flatMap fun d => (recursive s d).entered,
          ((c.children s).flatMap fun d => (recursive s d).visited) ++ [c]⟩ := by
  -- a chain down to the last level would be longer than the store has elements
  have hmore : ∀ d, within s (s.cells.size + 1) d = recursive s d := by
    intro d
    cases hd : d.element with
    | none => rw [recursive, within_empty hd, within_empty hd]
    | some x =>
      by_contra hne
      obtain ⟨l, hlength, hl⟩ := within_ne hd hne
      have := hs.chain_length hl
      omega
  rw [recursive, within]
  simp only [hmore]

end Tour

/-! ## What a walk has still to do -/

/-- What a visit of the agenda still enters and visits. -/
def Visit.tour (s : Store) : Visit → Tour
  | .whole place => .recursive s place
  | .alone place => ⟨[], [place]⟩

/-- What a walk still enters and visits, if the tree stays as it is. -/
def Walk.rest (s : Store) (w : Walk) : Tour :=
  ⟨(Walk.agendaOf w.stops).flatMap fun visit => (visit.tour s).entered,
    (Walk.agendaOf w.stops).flatMap fun visit => (visit.tour s).visited⟩

/-- How many motions a walk still makes. -/
def Walk.load (s : Store) (w : Walk) : Nat := Visit.loadAll s (Walk.agendaOf w.stops)

/-- Entering a place leaves the same to be done, but for the place itself, which is entered. -/
theorem Visit.opened_tour {s : Store} (hs : s.Acyclic) (c : Cursor) :
    (Tour.recursive s c).entered =
        (if c.element.isSome then [c] else []) ++
          (Visit.opened s c).flatMap (fun visit => (visit.tour s).entered) ∧
      (Tour.recursive s c).visited =
        (Visit.opened s c).flatMap (fun visit => (visit.tour s).visited) := by
  rw [Visit.opened, Tour.recursive_eq hs]
  cases hc : c.element with
  | none => simp
  | some r => simp [Visit.tour, List.flatMap_map]

namespace Walk

variable {s : Store} {w w' : Walk} {m : Motion}

/-- A motion opens the place at the head of the agenda, or visits it. -/
theorem advance_agenda (h : w.advance s = some (m, w')) :
    (∃ q tail, agendaOf w.stops = .whole q :: tail ∧
        agendaOf w'.stops = Visit.opened s q ++ tail ∧
        m.entered?.toList = (if q.element.isSome then [q] else []) ∧ m.visited? = none ∧
        w'.count = w.count) ∨
      ∃ p tail, agendaOf w.stops = .alone p :: tail ∧ agendaOf w'.stops = tail ∧
        m = .visited p ∧ w'.count = w.count + 1 := by
  cases advance_cases h with
  | @entered p q ahead outer hstops hq =>
    have hopened : Visit.opened s q = (q.children s).map .whole ++ [.alone q] := by
      rw [Visit.opened, if_neg (by simpa [Option.isSome_iff_ne_none] using hq)]
    refine .inl ⟨q, _, by rw [hstops, agendaOf_cons, List.map_cons, List.cons_append], ?_, ?_, rfl,
      rfl⟩
    · simp [hopened]
    · rw [if_pos hq]
      rfl
  | @passed p q ahead outer hstops hq =>
    have hopened : Visit.opened s q = [] := by
      rw [Visit.opened, if_pos (by simpa using hq)]
    refine .inl ⟨q, _, by rw [hstops, agendaOf_cons, List.map_cons, List.cons_append], ?_, ?_, rfl,
      rfl⟩
    · simp [hopened]
    · rw [if_neg (by simp [hq])]
      rfl
  | @visited p outer hstops => exact .inr ⟨p, _, by rw [hstops, agendaOf_cons]; rfl, rfl, rfl, rfl⟩

/-- A motion takes the head of what a walk still has to do, and lowers the load. -/
theorem advance_rest (hs : s.Acyclic) (hshaped : s.Shaped) (h : w.advance s = some (m, w')) :
    (w.rest s).entered = m.entered?.toList ++ (w'.rest s).entered ∧
      (w.rest s).visited = m.visited?.toList ++ (w'.rest s).visited ∧
      w'.load s < w.load s ∧ w'.count = w.count + m.visited?.toList.length := by
  rcases advance_agenda h with ⟨q, tail, hagenda, hagenda', hentered, hvisited, hcount⟩ |
    ⟨p, tail, hagenda, hagenda', rfl, hcount⟩
  · obtain ⟨hfirst, hthen⟩ := Visit.opened_tour hs q
    have hload := Visit.opened_load hshaped hs q
    simp only [rest, load, hagenda, hagenda', hentered, hvisited, hcount]
    refine ⟨?_, ?_, ?_, rfl⟩
    · simp [Visit.tour, hfirst]
    · simp [Visit.tour, hthen]
    · rw [Visit.loadAll_append, Visit.loadAll_cons]
      omega
  · simp only [rest, load, hagenda, hagenda', hcount]
    refine ⟨rfl, rfl, ?_, rfl⟩
    rw [Visit.loadAll_cons, Visit.load]
    omega

theorem advance_eq_none (h : w.advance s = none) : w.stops = [] := by
  unfold advance at h
  split at h
  · assumption
  · cases h
  · cases h

/-- A walk with nothing to do has no stops. -/
theorem stops_eq_nil (h : w.load s = 0) : w.stops = [] := by
  cases hstops : w.stops with
  | nil => rfl
  | cons stop outer =>
    rw [load, hstops, agendaOf_cons, Visit.loadAll_append, Visit.loadAll_cons, Visit.load] at h
    omega

/-- Enough motions do all that is left. -/
theorem motions_rest (hs : s.Acyclic) (hshaped : s.Shaped) {fuel : Nat} (hfuel : w.load s ≤ fuel) :
    (w.motions s fuel).filterMap Motion.entered? = (w.rest s).entered ∧
      (w.motions s fuel).filterMap Motion.visited? = (w.rest s).visited := by
  induction fuel generalizing w with
  | zero =>
    have hstops := stops_eq_nil (Nat.le_zero.mp hfuel)
    simp [motions, rest, hstops]
  | succ fuel ih =>
    rw [motions]
    cases hadvance : w.advance s with
    | none => simp [rest, advance_eq_none hadvance]
    | some moved =>
      obtain ⟨m, w'⟩ := moved
      obtain ⟨hentered, hvisited, hload, -⟩ := advance_rest hs hshaped hadvance
      obtain ⟨ihe, ihv⟩ := ih (w := w') (by omega)
      constructor
      · rw [hentered, ← ihe]
        cases m <;> rfl
      · rw [hvisited, ← ihv]
        cases m <;> rfl

theorem agendaOf_start (s : Store) (place : Cursor) :
    agendaOf (start s place).stops = Visit.opened s place := by
  rw [start, agendaOf_enter]
  exact List.append_nil _

/-- A whole walk is the recursive one. -/
theorem tour_eq (hs : s.Acyclic) (hshaped : s.Shaped) (place : Cursor) :
    tour s place = .recursive s place := by
  obtain ⟨hentered, hvisited⟩ := Visit.opened_tour hs place
  have hload : (start s place).load s ≤ 2 * (s.tree place.element).size := by
    rw [load, agendaOf_start]
    exact Nat.le_of_lt (Visit.opened_load hshaped hs place)
  obtain ⟨hmotions, hmotions'⟩ := motions_rest hs hshaped hload
  simp only [rest, agendaOf_start] at hmotions hmotions'
  rw [← hmotions] at hentered
  rw [← hmotions'] at hvisited
  have htour : ∀ t : Tour, t = ⟨t.entered, t.visited⟩ := fun _ => rfl
  rw [htour (.recursive s place), hentered, hvisited, tour]
  have hpicks : ∀ (f g : Motion → Option Cursor) (ms : List Motion), (∀ m, f m = g m) →
      ms.filterMap f = ms.filterMap g := fun f g ms hfg => by rw [funext hfg]
  refine congrArg₂ Tour.mk ?_ ?_
  · rw [hpicks _ Motion.entered? _ fun m => by cases m <;> rfl]
    cases place.element with
    | none => rfl
    | some r => rfl
  · exact hpicks _ _ _ fun m => by cases m <;> rfl

/-! ## Calls for the next place -/

/-- A call makes one motion, and goes on unless that was a visit. -/
theorem next_succ {fuel : Nat} (h : w.advance s = some (m, w')) :
    w.next s (fuel + 1) = match m.visited? with
      | some p => some (p, w')
      | none => w'.next s fuel := by
  rw [next, h]
  cases m <;> rfl

/-- A call gives the first place that is still to be visited. -/
theorem next_rest (hs : s.Acyclic) (hshaped : s.Shaped) {fuel : Nat} {p : Cursor}
    (h : w.next s fuel = some (p, w')) :
    (w.rest s).visited = p :: (w'.rest s).visited ∧ w'.count = w.count + 1 := by
  induction fuel generalizing w with
  | zero => cases h
  | succ fuel ih =>
    cases hadvance : w.advance s with
    | none => rw [next, hadvance] at h; cases h
    | some moved =>
      obtain ⟨m, w₁⟩ := moved
      obtain ⟨-, hvisited, -, hcount⟩ := advance_rest hs hshaped hadvance
      rw [next_succ hadvance] at h
      rw [hvisited]
      cases hm : m.visited? with
      | some q =>
        rw [hm] at h hcount
        obtain ⟨rfl, rfl⟩ := Prod.mk.inj (Option.some.inj h)
        exact ⟨rfl, hcount⟩
      | none =>
        rw [hm] at h hcount
        obtain ⟨hrest, hcount'⟩ := ih h
        exact ⟨hrest, by rw [hcount', hcount]; rfl⟩

/-- More motions than a call needs do no harm. -/
theorem next_mono {fuel fuel' : Nat} (hle : fuel ≤ fuel') (h : (w.next s fuel).isSome = true) :
    (w.next s fuel').isSome = true := by
  induction fuel generalizing fuel' w with
  | zero => cases h
  | succ fuel ih =>
    obtain ⟨fuel', rfl⟩ := Nat.exists_eq_add_of_le' (Nat.le_trans (Nat.le_add_left 1 fuel) hle)
    cases hadvance : w.advance s with
    | none => rw [next, hadvance] at h; cases h
    | some moved =>
      obtain ⟨m, w₁⟩ := moved
      rw [next_succ hadvance] at h ⊢
      cases hm : m.visited? with
      | some q => rfl
      | none =>
        rw [hm] at h
        exact ih (by omega) h

end Walk

/-! ## How far a call can go -/

namespace Store

variable {s : Store}

/-- An element and its places. -/
def breadth (s : Store) (r : Ref) : Nat := (s.below r).length + 1

theorem extent_eq (s : Store) :
    s.extent = ((List.range s.cells.size).map fun n => s.breadth (.cell n)).sum + 1 := by
  have hfold : ∀ f : Nat → Cell → Nat, (∀ n c, f n c = n + (c.below.length + 1)) →
      ∀ (cells : List Cell) (n : Nat),
        cells.foldl f n = n + (cells.map fun c => c.below.length + 1).sum := by
    intro f hf cells
    induction cells with
    | nil => simp
    | cons c rest ih =>
      intro n
      rw [List.foldl_cons, ih, hf, List.map_cons, List.sum_cons, Nat.add_assoc]
  have hcells : s.cells.toList.map (fun c => c.below.length + 1) =
      (List.range s.cells.size).map fun n => s.breadth (.cell n) := by
    refine List.ext_getElem (by simp) fun i hi hi' => ?_
    have hlt : i < s.cells.size := by simpa using hi
    simp [breadth, below, get, hlt]
  rw [extent, ← Array.foldl_toList, hfold _ fun n c => by cases c <;> rfl, hcells, Nat.add_comm]

/-- A chain downward is no broader than the store. -/
theorem Acyclic.chain_breadth (hs : s.Acyclic) {l : List Ref} (hl : l.IsChain s.Holds) :
    (l.map s.breadth).sum ≤ s.extent := by
  have hnodup := hs.chain_nodup hl
  have hcells := chain_dropLast_cell hl
  rw [extent_eq]
  rcases List.eq_nil_or_concat l with rfl | ⟨above, last, rfl⟩
  · simp
  · rw [List.concat_eq_append] at hnodup hcells ⊢
    rw [List.dropLast_concat] at hcells
    have habove := sum_cells_le s.breadth (hnodup.sublist (List.sublist_append_left _ _)) hcells
    -- only the last element of a chain may be without a cell, and then it has no children
    have hlast : s.breadth last = 1 ∨ ∃ n, last = .cell n ∧ n < s.cells.size := by
      cases last with
      | emptyStatement => exact .inl rfl
      | null => exact .inl rfl
      | cell n =>
        by_cases hn : n < s.cells.size
        · exact .inr ⟨n, rfl, hn⟩
        · rw [breadth, below, get_unknown (show ¬ s.Known (.cell n) from hn)]
          exact .inl rfl
    rcases hlast with hone | hcell
    · rw [List.map_append, List.sum_append, List.map_singleton, List.sum_singleton, hone]
      omega
    · have hall := sum_cells_le s.breadth hnodup fun r hr => by
        rcases List.mem_append.mp hr with hr | hr
        · exact hcells r hr
        · rw [List.mem_singleton.mp hr]
          exact hcell
      omega

end Store

namespace Walk

variable {s : Store} {w w' : Walk}

theorem length_children (hshaped : s.Shaped) {c : Cursor} {r : Ref} (hc : c.element = some r) :
    (c.children s).length + 1 = s.breadth r := by
  rw [Store.children_eq_keys hc, List.length_map, hshaped.length_keys, Store.breadth]

/-- A motion that passes an empty place. -/
theorem advance_empty {d place : Cursor} {ahead : List Cursor} {outer : List Stop} {n : Nat}
    (hd : d.element = none) : advance s ⟨⟨place, d :: ahead⟩ :: outer, n⟩ =
      some (.passed, ⟨⟨place, ahead⟩ :: outer, n⟩) := by
  simp [advance, enter, hd]

/-- A motion that enters a place. -/
theorem advance_element {d place : Cursor} {ahead : List Cursor} {outer : List Stop} {n : Nat}
    {c : Ref} (hd : d.element = some c) : advance s ⟨⟨place, d :: ahead⟩ :: outer, n⟩ =
      some (.entered d, ⟨⟨d, d.children s⟩ :: ⟨place, ahead⟩ :: outer, n⟩) := by
  simp [advance, enter, hd]

/-- A call passes what is empty ahead of the innermost stop, and then goes down a chain. -/
theorem next_ahead {ahead : List Cursor}
    (hbelow : ∀ d ∈ ahead, ∀ c, d.element = some c → ∀ outer n,
      ∃ l : List Ref, (c :: l).IsChain s.Holds ∧
        (next s ((c :: l).map s.breadth).sum ⟨⟨d, d.children s⟩ :: outer, n⟩).isSome = true)
    (place : Cursor) (outer : List Stop) (n : Nat) :
    ∃ l : List Ref, l.IsChain s.Holds ∧ (∀ c ∈ l.head?, ∃ d ∈ ahead, d.element = some c) ∧
      (next s (ahead.length + 1 + (l.map s.breadth).sum) ⟨⟨place, ahead⟩ :: outer, n⟩).isSome =
        true := by
  induction ahead with
  | nil => exact ⟨[], List.isChain_nil, fun _ h => (nomatch h), rfl⟩
  | cons d ahead ih =>
    obtain ⟨hd, hahead⟩ := List.forall_mem_cons.mp hbelow
    cases helement : d.element with
    | none =>
      obtain ⟨l, hl, hhead, hnext⟩ := ih hahead
      refine ⟨l, hl, fun c hc => ?_, ?_⟩
      · obtain ⟨d', hd', hc'⟩ := hhead c hc
        exact ⟨d', List.mem_cons_of_mem _ hd', hc'⟩
      · have hpassed : (next s (ahead.length + 1 + (l.map s.breadth).sum + 1)
            ⟨⟨place, d :: ahead⟩ :: outer, n⟩).isSome = true := by
          rw [next_succ (advance_empty helement)]
          exact hnext
        exact next_mono (by rw [List.length_cons]; omega) hpassed
    | some c =>
      obtain ⟨l, hl, hnext⟩ := hd c helement (⟨place, ahead⟩ :: outer) n
      refine ⟨c :: l, hl, fun c' hc' => ?_, ?_⟩
      · obtain rfl := Option.some.inj hc'
        exact ⟨d, List.mem_cons_self, helement⟩
      · have hentered : (next s (((c :: l).map s.breadth).sum + 1)
            ⟨⟨place, d :: ahead⟩ :: outer, n⟩).isSome = true := by
          rw [next_succ (advance_element helement)]
          exact hnext
        exact next_mono (by rw [List.length_cons]; omega) hentered

/-- A call from a place that has just been entered goes down a chain from there. -/
theorem next_below (hs : s.Acyclic) (hshaped : s.Shaped) (r : Ref) (place : Cursor)
    (hplace : place.element = some r) (outer : List Stop) (n : Nat) :
    ∃ l : List Ref, (r :: l).IsChain s.Holds ∧
      (next s ((r :: l).map s.breadth).sum ⟨⟨place, place.children s⟩ :: outer, n⟩).isSome =
        true := by
  -- what an element holds comes before it, so the induction ends at elements without children
  induction r using hs.induction generalizing place outer n with
  | step r ih =>
    have hheld : ∀ d ∈ place.children s, ∀ c, d.element = some c → s.Holds r c := by
      intro d hd c hc
      obtain ⟨key, rfl⟩ := Cursor.mem_children hd
      have hbelow : Cursor.elementBelow s place.element key = some c := hc
      rw [hplace] at hbelow
      exact Cursor.holds_elementBelow hbelow
    obtain ⟨l, hl, hhead, hnext⟩ := next_ahead
      (fun d (hd : d ∈ place.children s) c hc => ih c (hheld d hd c hc) d hc) place outer n
    refine ⟨l, List.isChain_cons.mpr ⟨fun c hc => ?_, hl⟩, ?_⟩
    · obtain ⟨d, hd, hdc⟩ := hhead c hc
      exact hheld d hd c hdc
    · rw [List.map_cons, List.sum_cons, ← length_children hshaped hplace]
      exact hnext

/-- What is ahead of the stops only adds to the bound. -/
theorem le_foldl_ahead (stops : List Stop) (k : Nat) :
    k ≤ stops.foldl (fun n stop => n + stop.ahead.length + 1) k := by
  induction stops generalizing k with
  | nil => exact Nat.le_refl k
  | cons stop rest ih =>
    rw [List.foldl_cons]
    have hrest := ih (k + stop.ahead.length + 1)
    omega

/-- A call gives a place as long as there is a stop, in any state of the tree. -/
theorem exists_next (hs : s.Acyclic) (hshaped : s.Shaped) (hstops : w.stops ≠ []) :
    ∃ p w', w.next s (w.reachBound s) = some (p, w') := by
  obtain ⟨stops, n⟩ := w
  cases stops with
  | nil => exact absurd rfl hstops
  | cons stop outer =>
    obtain ⟨place, ahead⟩ := stop
    obtain ⟨l, hl, -, hnext⟩ := next_ahead
      (fun d (_ : d ∈ ahead) c hc => next_below hs hshaped c d hc) place outer n
    have hbound := hs.chain_breadth hl
    -- the bound allows a motion for every place ahead and for every place below one of them
    have hreach : s.extent + 1 + ahead.length + 1 ≤ reachBound s ⟨⟨place, ahead⟩ :: outer, n⟩ :=
      le_foldl_ahead outer _
    have hsome : (next s (reachBound s ⟨⟨place, ahead⟩ :: outer, n⟩)
        ⟨⟨place, ahead⟩ :: outer, n⟩).isSome = true := next_mono (by omega) hnext
    obtain ⟨⟨p, w'⟩, h⟩ := Option.isSome_iff_exists.mp hsome
    exact ⟨p, w', h⟩

/-- The places that calls for the next one give, at most so many, in one state of the tree. -/
def calls (s : Store) : (n : Nat) → Walk → List Cursor × Walk
  | 0, w => ([], w)
  | n + 1, w =>
    match w.next s (w.reachBound s) with
    | none => ([], w)
    | some (p, w) => (p :: (calls s n w).1, (calls s n w).2)

/-- A walk is exhausted when nothing is left to be visited. -/
theorem isDone_iff (s : Store) (w : Walk) : w.isDone = true ↔ (w.rest s).visited = [] := by
  rw [isDone, List.isEmpty_iff, rest]
  cases hstops : w.stops with
  | nil => simp
  | cons stop outer => simp [agendaOf, Visit.tour]

theorem calls_rest (hs : s.Acyclic) (hshaped : s.Shaped) (n : Nat) (w : Walk) :
    (w.calls s n).1 = (w.rest s).visited.take n ∧
      ((w.calls s n).2.rest s).visited = (w.rest s).visited.drop n ∧
      (w.calls s n).2.count = w.count + min n (w.rest s).visited.length := by
  induction n generalizing w with
  | zero => simp [calls]
  | succ n ih =>
    rw [calls]
    by_cases hdone : w.isDone = true
    · have hrest := (isDone_iff s w).mp hdone
      cases hnext : w.next s (w.reachBound s) with
      | none => simp [hrest]
      | some pulled =>
        obtain ⟨p, w'⟩ := pulled
        have hvisited := (next_rest hs hshaped hnext).1
        rw [hrest] at hvisited
        cases hvisited
    · have hstops : w.stops ≠ [] := by simpa [isDone] using hdone
      obtain ⟨p, w', hnext⟩ := exists_next hs hshaped hstops
      obtain ⟨hvisited, hcount⟩ := next_rest hs hshaped hnext
      obtain ⟨htake, hdrop, hcalls⟩ := ih w'
      simp only [hnext, hvisited, htake, hdrop, hcalls, hcount, List.take_succ_cons,
        List.drop_succ_cons, List.length_cons, true_and]
      omega

/-- A lazy walk goes through a tree depth first, whatever happens to the tree in the meantime.

At any point of a walk, with the tree in another state at each of its motions: what it has entered
and visited is properly nested, and it counts what it has visited.  Below a place that it has
entered it goes in order through what the place had there at that moment, empty places left out.  A
place that it visits was entered once before that, by then everything that the place had below it
has been entered and visited in order, and nothing is visited twice.  A call for the next place
makes motions up to the first visit, and gives a place unless the walk is exhausted.

If the tree stays as it is, a walk enters everything in the order of the recursion that takes a
place before its children, and visits it in the order of the one that takes a place after them.
Calls give the latter one by one, and exhaust the walk with the last of them. -/
theorem walk_depth_first :
    (∀ (place : Cursor) (log : List (Store × Motion)) (w : Walk), History place log w →
      openAfter [] (log.map Prod.snd) = some (w.stops.map Stop.place) ∧
      w.count = (visited log).length ∧
      (∀ s p, (s, Motion.entered p) ∈ log →
        childrenIn (entered log) p <+: occupied (p.children s)) ∧
      (∀ before s' p after, log = before ++ (s', .visited p) :: after →
        ((entered before).count p = 1 ∧ p ∉ entered after) ∧
        (p ∉ visited before ∧ p ∉ visited after) ∧
        ∃ s, (s, Motion.entered p) ∈ before ∧
          childrenIn (entered log) p = occupied (p.children s) ∧
          childrenIn (visited before) p = occupied (p.children s)) ∧
      (∀ s fuel p w', w.next s fuel = some (p, w') →
        ∃ more, History place (log ++ more ++ [(s, .visited p)]) w' ∧ visited more = []) ∧
      ∀ s, s.Acyclic → s.Shaped → w.isDone = false →
        ∃ p w', w.next s (w.reachBound s) = some (p, w')) ∧
    ∀ (s : Store) (place : Cursor), s.Acyclic → s.Shaped →
      (∀ c, Tour.recursive s c =
        if c.element.isNone then ⟨[], []⟩
        else
          ⟨c :: (c.children s).flatMap fun d => (Tour.recursive s d).entered,
            ((c.children s).flatMap fun d => (Tour.recursive s d).visited) ++ [c]⟩) ∧
      tour s place = .recursive s place ∧
      ∀ n, ((start s place).calls s n).1 = (Tour.recursive s place).visited.take n ∧
        ((start s place).calls s n).2.count = min n (Tour.recursive s place).visited.length ∧
        (((start s place).calls s n).2.isDone = true ↔
          (Tour.recursive s place).visited.length ≤ n) := by
  constructor
  · intro place log w h
    refine ⟨h.recorded.nested, h.recorded.count, fun s p => h.begun,
      fun before s' p after => h.visit, fun s fuel p w' => h.next, ?_⟩
    intro s hs hshaped hdone
    exact exists_next hs hshaped (by simpa [isDone] using hdone)
  · intro s place hs hshaped
    refine ⟨Tour.recursive_eq hs, tour_eq hs hshaped place, fun n => ?_⟩
    have hrest : ((start s place).rest s).visited = (Tour.recursive s place).visited := by
      rw [(Visit.opened_tour hs place).2, rest, agendaOf_start]
    have hcount : (start s place).count = 0 := by
      rw [start, enter]
      split <;> rfl
    obtain ⟨htake, hdrop, hcalls⟩ := calls_rest hs hshaped n (start s place)
    rw [hrest] at htake hdrop hcalls
    refine ⟨htake, by rw [hcalls, hcount, Nat.zero_add], ?_⟩
    rw [isDone_iff s, hdrop, List.drop_eq_nil_iff]

/-- The first of two items is removed after the walk has come to their list.  Both are visited. -/
theorem walk_depth_first_twoItems :
    ∃ (root list : Cursor) (t : Store) (before : List (Store × Motion)) (w : Walk),
      History root (before ++ [(t, .visited list)]) w ∧
      (occupied (list.children t)).length = 1 ∧
      (occupied (list.children twoItems.store)).length = 2 ∧
      childrenIn (visited before) list = occupied (list.children twoItems.store) ∧
      w.count = 3 ∧
      tour twoItems.store root = .recursive twoItems.store root ∧
      ((start twoItems.store root).calls twoItems.store 4).2.isDone = true := by
  let s := twoItems.store
  let t : Store := ⟨#[.list [some .emptyStatement], .node .script [some (.cell 0)]]⟩
  let root : Cursor := .root (some (.cell 1))
  let list := root.field s "statements"
  let item (i : Int) := list.index s i
  have hlist : History root _ _ := (History.started s).moved (s := s) (m := .entered list) rfl
  have hfirst : History root _ _ :=
    (hlist.moved (s := t) (m := .entered (item 0)) rfl).moved (s := t) (m := .visited (item 0)) rfl
  have hsecond : History root _ _ :=
    (hfirst.moved (s := t) (m := .entered (item 1)) rfl).moved (s := t) (m := .visited (item 1)) rfl
  have hleft : History root _ _ := hsecond.moved (s := t) (m := .visited list) rfl
  obtain ⟨hhistory, hwalk⟩ := walk_depth_first
  obtain ⟨-, hcount, -, hvisit, -, -⟩ := hhistory root _ _ hleft
  obtain ⟨-, -, s', hs', -, hvisited⟩ := hvisit _ t list [] rfl
  obtain ⟨-, htour, hcalls⟩ := hwalk s root twoItems_acyclic twoItems_shaped
  -- the list was entered in the first state
  obtain rfl : s' = s := by
    have hroot : list ≠ root := by decide
    have hzero : list ≠ item 0 := by decide
    have hone : list ≠ item 1 := by decide
    simpa [hroot, hzero, hone] using hs'
  exact ⟨root, list, t, _, _, hleft, by decide, by decide, hvisited, hcount.trans (by decide),
    htour, (hcalls 4).2.2.mpr (by decide)⟩

end Walk

end ScriptSimplifier
