import ScriptSimplifier.Proofs.Edits
import ScriptSimplifier.Proofs.Rule.Building

/-!
# What simplifications do to lists

The simplifications of statement lists find positions first and then edit by position.  Here the
positions are turned into a description of the list itself: which statements are dropped, which
two are joined, and how runs of expression statements are fused (`ListStep`).  For each
simplification, applying the edit to the list gives the items that the step describes.
-/

namespace ScriptSimplifier

namespace Sequences

open Workspace

/-! ## Runs -/

/-- A list of items cut into runs of expression statements, as long as they can be, and items
between them. -/
inductive Decomposes (s : Store) : Nat → List (Option Ref) → List Run → Prop
  | nil (position : Nat) : Decomposes s position [] []
  | skip {position : Nat} {item : Option Ref} {rest : List (Option Ref)} {runs : List Run} :
      statementExpression? s item = none → Decomposes s (position + 1) rest runs →
      Decomposes s position (item :: rest) runs
  | run {position : Nat} {chunk rest es : List (Option Ref)} {runs : List Run} : chunk ≠ [] →
      chunk.map (statementExpression? s) = es.map some →
      (∀ next ∈ rest.head?, statementExpression? s next = none) →
      Decomposes s (position + chunk.length) rest runs →
      Decomposes s position (chunk ++ rest) (⟨position, es⟩ :: runs)

theorem Decomposes.start_le {s : Store} {position : Nat} {items : List (Option Ref)}
    {runs : List Run} (h : Decomposes s position items runs) :
    ∀ run ∈ runs, position ≤ run.start := by
  induction h with
  | nil position => simp
  | skip _ _ ih =>
    intro run hrun
    have := ih run hrun
    omega
  | run _ _ _ _ ih =>
    intro run hrun
    rcases List.mem_cons.mp hrun with rfl | hrun
    · exact Nat.le_refl _
    · have := ih run hrun
      omega

/-- An expression statement starts a run or belongs to one. -/
theorem runsFrom_statement {s : Store} {item e : Option Ref}
    (h : statementExpression? s item = some e) (position : Nat) (rest : List (Option Ref)) :
    ∃ es more, runsFrom s position (item :: rest) = ⟨position, e :: es⟩ :: more := by
  rw [runsFrom, h]
  split
  · contradiction
  · rename_i hsome _
    obtain rfl := Option.some.inj hsome
    split <;> exact ⟨_, _, rfl⟩
  · rename_i hsome _
    obtain rfl := Option.some.inj hsome
    exact ⟨_, _, rfl⟩

/-- An expression statement is a run by itself if no run starts directly behind it. -/
theorem Decomposes.alone {s : Store} {position : Nat} {item e : Option Ref}
    {rest : List (Option Ref)} (hitem : statementExpression? s item = some e)
    (hrest : Decomposes s (position + 1) rest (runsFrom s (position + 1) rest))
    (hapart : ∀ run ∈ (runsFrom s (position + 1) rest).head?, run.start ≠ position + 1) :
    Decomposes s position (item :: rest) (⟨position, [e]⟩ :: runsFrom s (position + 1) rest) := by
  have hchunk : [item].map (statementExpression? s) = [e].map some := by simp [hitem]
  refine .run (by simp) hchunk (fun next hnext => ?_) hrest
  cases hf : statementExpression? s next with
  | none => rfl
  | some f =>
    obtain ⟨tail, rfl⟩ := List.head?_eq_some_iff.mp hnext
    obtain ⟨es, more, hruns⟩ := runsFrom_statement hf (position + 1) tail
    exact absurd rfl (hapart ⟨position + 1, f :: es⟩ (by rw [hruns]; rfl))

/-- An expression statement becomes part of the run that starts directly behind it. -/
theorem Decomposes.extend {s : Store} {position : Nat} {item e : Option Ref}
    {rest es : List (Option Ref)} {more : List Run} (hitem : statementExpression? s item = some e)
    (hrest : Decomposes s (position + 1) rest (⟨position + 1, es⟩ :: more)) :
    Decomposes s position (item :: rest) (⟨position, e :: es⟩ :: more) := by
  generalize hstart : position + 1 = start at hrest
  generalize hruns : ({ start := start, expressions := es } : Run) :: more = runs at hrest
  cases hrest with
  | nil => simp at hruns
  | skip _ hskip =>
    subst hruns
    have := hskip.start_le _ List.mem_cons_self
    simp only at this
    omega
  | @run _ chunk rest' es' _ hne hmap hapart htail =>
    obtain ⟨hrun, rfl⟩ := List.cons.inj hruns
    obtain ⟨-, rfl⟩ := Run.mk.inj hrun
    rw [← List.cons_append]
    refine .run (by simp) (by simp [hitem, hmap]) hapart ?_
    have hpos : position + (item :: chunk).length = start + chunk.length := by
      simp only [List.length_cons]
      omega
    rw [hpos]
    exact htail

/-- The runs that are found cut the list. -/
theorem decomposes_runsFrom (s : Store) (position : Nat) (items : List (Option Ref)) :
    Decomposes s position items (runsFrom s position items) := by
  induction items generalizing position with
  | nil => exact .nil position
  | cons item rest ih =>
    have hrest := ih (position + 1)
    cases hitem : statementExpression? s item with
    | none =>
      rw [runsFrom, hitem]
      exact .skip hitem hrest
    | some e =>
      have halone := Decomposes.alone hitem hrest
      rw [runsFrom, hitem]
      cases hlater : runsFrom s (position + 1) rest with
      | nil =>
        rw [hlater] at halone
        exact halone (by simp)
      | cons run more =>
        obtain ⟨start, es⟩ := run
        rw [hlater] at hrest halone
        dsimp only
        split
        · rename_i hstart
          subst hstart
          exact hrest.extend hitem
        · rename_i hstart
          exact halone (by simpa using hstart)

/-! ## Steps of a list -/

/-- The statement that a run of expressions becomes. -/
def fusedStatement (w : Workspace) (first : Option Ref) (others : List (Option Ref)) :
    Ref × Workspace :=
  let (e, w) := joinAll w first others
  w.add .expressionStatement [e]

/-- Whether two items are both expression statements, so that next to each other they belong to one
run. -/
def together (s : Store) (a b : Option Ref) : Bool :=
  (statementExpression? s a).isSome && (statementExpression? s b).isSome

/-- How a list is fused, from the item at a position on: what is put at which positions, which
positions are removed, what remains, and the workspace with the new statements.  An expression
statement is kept only if it stands alone, and runs are as long as they can be. -/
inductive Fuses (s : Store) : Nat → Workspace → List (Option Ref) → List (Nat × Ref) → List Nat →
    List (Option Ref) → Workspace → Prop
  | nil (position : Nat) (w : Workspace) : Fuses s position w [] [] [] [] w
  | keep {position : Nat} {w w' : Workspace} (item : Option Ref) {rest rest' : List (Option Ref)}
      {puts : List (Nat × Ref)} {gone : List Nat} :
      (∀ next ∈ rest.head?, together s item next = false) →
      Fuses s (position + 1) w rest puts gone rest' w' →
      Fuses s position w (item :: rest) puts gone (item :: rest') w'
  | fuse {position : Nat} {w w' : Workspace} {chunk others rest rest' : List (Option Ref)}
      {first : Option Ref} {puts : List (Nat × Ref)} {gone : List Nat} : others ≠ [] →
      chunk.map (statementExpression? s) = (first :: others).map some →
      (∀ next ∈ rest.head?, statementExpression? s next = none) →
      Fuses s (position + chunk.length) (fusedStatement w first others).2 rest puts gone rest' w' →
      Fuses s position w (chunk ++ rest) ((position, (fusedStatement w first others).1) :: puts)
        (List.range' (position + 1) others.length ++ gone)
        (some (fusedStatement w first others).1 :: rest') w'

/-- How the items of a list may be rewritten, and the workspace with the new statements. -/
inductive ListStep (w : Workspace) : List (Option Ref) → List (Option Ref) → Workspace → Prop
  | dropped {before after : List (Option Ref)} {jump : Option Ref} :
      isJump w.store jump = true → after ≠ [] →
      ListStep w (before ++ jump :: after) (before ++ [jump]) w
  | completed {before after : List (Option Ref)} {statement next first second : Option Ref}
      {label : Label} : statementExpression? w.store statement = some first →
      completion? w.store next = some (label, second) →
      ListStep w (before ++ statement :: next :: after)
        (before ++ some ((join w first second).2.add label [(join w first second).1]).1 :: after)
        ((join w first second).2.add label [(join w first second).1]).2
  | fused {items items' : List (Option Ref)} {puts : List (Nat × Ref)} {gone : List Nat}
      {w' : Workspace} : gone ≠ [] → Fuses w.store 0 w items puts gone items' w' →
      ListStep w items items' w'

theorem Fuses.pool {s : Store} {position : Nat} {w w' : Workspace}
    {items items' : List (Option Ref)} {puts : List (Nat × Ref)} {gone : List Nat}
    (h : Fuses s position w items puts gone items' w') : w'.pool = w.pool := by
  induction h with
  | nil position w => rfl
  | keep item happart hrest ih => exact ih
  | fuse hne hmap hapart hrest ih => exact ih.trans (pool_joinAll _ _ _)

/-- Steps of a list leave the pool alone. -/
theorem ListStep.pool {w w' : Workspace} {items items' : List (Option Ref)}
    (h : ListStep w items items' w') : w'.pool = w.pool := by
  cases h with
  | dropped hjump hafter => rfl
  | completed hst hnext => exact pool_join w _ _
  | fused hgone hfuses => exact hfuses.pool

/-! ## Positions -/

section without

variable {α : Type*}

theorem without_disjoint {ps : List Nat} {start : Nat} {l : List α}
    (h : ∀ i, start ≤ i → i < start + l.length → i ∉ ps) : without ps start l = l := by
  have hnone : without ps start l = without [] start l :=
    without_congr fun i hi hlt => by simp [h i hi hlt]
  rw [hnone, without_none]

theorem without_all {ps : List Nat} {start : Nat} {l : List α}
    (h : ∀ i, start ≤ i → i < start + l.length → i ∈ ps) : without ps start l = [] := by
  induction l generalizing start with
  | nil => rfl
  | cons a rest ih =>
    rw [without, if_pos (h start (Nat.le_refl _) (by simp))]
    exact ih fun i hi hlt => h i (by omega) (by simp only [List.length_cons]; omega)

/-- Without all positions from some point on, the items before it remain. -/
theorem without_tail (l m : List α) : without (List.range' l.length m.length) 0 (l ++ m) = l := by
  rw [without_append, without_disjoint, without_all, List.append_nil]
  · intro i hi hi'
    rw [List.mem_range'_1]
    omega
  · intro i _ hi' hmem
    rw [List.mem_range'_1] at hmem
    omega

/-- Positions from the first one on remove as many items, and of the positions given besides only
those behind matter. -/
theorem without_range_append (ps : List Nat) (start : Nat) (l m : List α) :
    without (List.range' start l.length ++ ps) start (l ++ m) = without ps (start + l.length) m := by
  rw [without_append, without_all, List.nil_append]
  · refine without_congr fun i hi _ => ?_
    rw [List.mem_append, List.mem_range'_1]
    exact ⟨fun h => h.resolve_left fun hin => by omega, .inr⟩
  · intro i hi hi'
    exact List.mem_append_left _ (List.mem_range'_1.mpr ⟨hi, hi'⟩)

end without

/-- The positions from one on, as the edits of lists name them. -/
theorem positions_eq (start count : Nat) :
    ((List.range count).map fun i : Nat => ((start + i : Nat) : Int)) =
      (List.range' start count).map fun i : Nat => (i : Int) := by
  rw [List.range'_eq_map_range, List.map_map]
  rfl

/-- Puts statements at positions. -/
def putAll (puts : List (Nat × Ref)) (items : List (Option Ref)) : List (Option Ref) :=
  puts.foldl (fun items p => items.set p.1 (some p.2)) items

/-- What a fusion says about the items from a position on: with its statements put the items are
`marked`, and without the removed positions `items'` is left of those.  The removed positions are
behind the first item, since a run keeps its first position. -/
structure Marks (position : Nat) (items : List (Option Ref)) (puts : List (Nat × Ref))
    (gone : List Nat) (marked items' : List (Option Ref)) : Prop where
  length : marked.length = items.length
  put : ∀ before : List (Option Ref), before.length = position →
    putAll puts (before ++ items) = before ++ marked
  remain : without gone position marked = items'
  gone_bound : ∀ i ∈ gone, position < i ∧ i < position + items.length
  puts_bound : ∀ p ∈ puts, p.1 < position + items.length

section

variable {position : Nat} {rest marked rest' : List (Option Ref)} {puts : List (Nat × Ref)}
  {gone : List Nat}

theorem Marks.keep (item : Option Ref) (h : Marks (position + 1) rest puts gone marked rest') :
    Marks position (item :: rest) puts gone (item :: marked) (item :: rest') where
  length := by simp [h.length]
  put before hbefore := by
    have hput := h.put (before ++ [item]) (by simp [hbefore])
    simpa using hput
  remain := by
    have hnot : position ∉ gone := fun hmem => by
      have := h.gone_bound position hmem
      omega
    rw [without, if_neg hnot, h.remain]
  gone_bound i hi := by
    have := h.gone_bound i hi
    simp only [List.length_cons]
    omega
  puts_bound p hp := by
    have := h.puts_bound p hp
    simp only [List.length_cons]
    omega

theorem Marks.fuse {item : Option Ref} {others : List (Option Ref)} (new : Ref)
    (h : Marks (position + (others.length + 1)) rest puts gone marked rest') :
    Marks position (item :: (others ++ rest)) ((position, new) :: puts)
      (List.range' (position + 1) others.length ++ gone) (some new :: (others ++ marked))
      (some new :: rest') where
  length := by simp [h.length]
  put before hbefore := by
    have hput := h.put (before ++ some new :: others) (by
      simp only [List.length_append, List.length_cons]
      omega)
    rw [putAll, List.foldl_cons] at *
    rw [List.set_append_right _ _ (by omega), hbefore]
    simpa using hput
  remain := by
    -- the first position stays, the others of the run go, and behind it only `gone` matters
    have hstay : position ∉ List.range' (position + 1) others.length ++ gone := by
      intro hmem
      rcases List.mem_append.mp hmem with hmem | hmem
      · rw [List.mem_range'_1] at hmem
        omega
      · have := h.gone_bound position hmem
        omega
    rw [without, if_neg hstay, without_range_append, Nat.add_assoc, Nat.add_comm 1, h.remain]
  gone_bound i hi := by
    simp only [List.length_cons, List.length_append]
    rcases List.mem_append.mp hi with hi | hi
    · rw [List.mem_range'_1] at hi
      omega
    · have := h.gone_bound i hi
      omega
  puts_bound p hp := by
    simp only [List.length_cons, List.length_append]
    rcases List.mem_cons.mp hp with rfl | hp
    · show position < _
      omega
    · have := h.puts_bound p hp
      omega

/-- Putting and removing what a fusion says leaves what it says. -/
theorem Fuses.marks {s : Store} {w w' : Workspace} {items items' : List (Option Ref)}
    (h : Fuses s position w items puts gone items' w') :
    ∃ marked, Marks position items puts gone marked items' := by
  induction h with
  | nil position w => exact ⟨[], rfl, by simp [putAll], rfl, by simp, by simp⟩
  | keep item _ _ ih =>
    obtain ⟨marked, hmarks⟩ := ih
    exact ⟨item :: marked, hmarks.keep item⟩
  | @fuse position w w' chunk others rest rest' first puts gone hne hmap _ _ ih =>
    obtain ⟨marked, hmarks⟩ := ih
    have hchunk : chunk.length = others.length + 1 := by simpa using congrArg List.length hmap
    obtain ⟨item, tail, rfl⟩ := List.exists_cons_of_length_eq_add_one hchunk
    have htail : tail.length = others.length := by simpa using hchunk
    rw [← htail]
    exact ⟨_, hmarks.fuse _⟩

end

/-! ## Edits of a list -/

variable {pool : Pool} {place : Cursor} {edit : Edit} {w w' : Workspace}

/-- The edit that puts a statement at a position. -/
def putAt (place : Cursor) (p : Nat × Ref) : Edit :=
  .replace (.step place (.index p.1) (some p.2))

theorem applyAll_puts {s : Store} {l : Ref} (h : Edit.Editable pool s place l)
    {items : List (Option Ref)} (hl : s.get l = .list items) {puts : List (Nat × Ref)}
    (hputs : ∀ p ∈ puts, p.1 < items.length ∧ s.isList p.2 = false) (position : Nat) :
    Edit.applyAll (some pool) s position (puts.map (putAt place)) =
      (s.refill l (putAll puts items), none) := by
  induction puts generalizing s items position with
  | nil =>
    have hbelow : s.below l = items := by rw [Store.below, hl]; rfl
    rw [List.map_nil, Edit.applyAll, putAll, List.foldl_nil, ← hbelow, Store.refill_below]
  | cons p puts ih =>
    obtain ⟨⟨hi, hn⟩, hrest⟩ := List.forall_mem_cons.mp hputs
    have hput : Edit.apply (some pool) s (putAt place p) =
        (s.refill l (items.set p.1 (some p.2)), none) := Edit.apply_put_item h hl hn hi s
    have hrest' : ∀ q ∈ puts, q.1 < (items.set p.1 (some p.2)).length ∧
        (s.refill l (items.set p.1 (some p.2))).isList q.2 = false := by
      intro q hq
      simpa using hrest q hq
    rw [List.map_cons, Edit.applyAll, hput]
    show Edit.applyAll _ _ _ _ = _
    rw [ih (h.refill l _) (Edit.get_refill_list hl _) hrest' (position + 1),
      Edit.refill_refill_list hl]
    rfl

theorem listField?_eq {s : Store} {items : List (Option Ref)}
    (h : listField? s place = some items) :
    ∃ l, place.element = some l ∧ s.get l = .list items := by
  rw [listField?] at h
  obtain ⟨l, hl, h⟩ := Option.bind_eq_some_iff.mp h
  obtain ⟨parent, _, h⟩ := Option.bind_eq_some_iff.mp h
  obtain ⟨owner, _, h⟩ := Option.bind_eq_some_iff.mp h
  obtain ⟨kind, _, h⟩ := Option.bind_eq_some_iff.mp h
  rw [Cursor.list?, Option.filter_eq_some_iff] at hl
  refine ⟨l, hl.1, ?_⟩
  split at h
  · rw [Store.items?] at h
    cases hget : s.get l with
    | node label kids => simp [hget] at h
    | list items' => simpa [hget] using h
  · simp at h

/-- What a list simplification does: it rewrites the items of the list at the place, and touches
only places directly below it. -/
structure Rewrites (w : Workspace) (place : Cursor) (edit : Edit) (w' : Workspace) (l : Ref)
    (items items' : List (Option Ref)) : Prop where
  element : place.element = some l
  list : w.store.get l = .list items
  step : ListStep w items items' w'
  apply : ∀ s : Store, Edit.Editable w'.pool s place l → s.get l = .list items →
    (∀ r, s.isList r = w'.store.isList r) →
    edit.apply (some w'.pool) s = (s.refill l items', none)
  invalidated : ∀ c ∈ edit.invalidated,
    c = place ∨ ∃ (i : Nat) (n : Ref), c = .step place (.index i) (some n)
  invalidated_place : place ∈ edit.invalidated

theorem invalidated_removeAll (s : Store) (place : Cursor) {positions : List Int}
    (hne : positions ≠ []) :
    (∀ c ∈ (Edit.removeAll s place positions).invalidated, c = place) ∧
      place ∈ (Edit.removeAll s place positions).invalidated := by
  have hall : ∀ ds : List Int,
      Edit.invalidatedAll (ds.map fun i => .remove (place.index s i)) = ds.map fun _ => place := by
    intro ds
    induction ds with
    | nil => rfl
    | cons d ds ih =>
      rw [List.map_cons, Edit.invalidatedAll, ih]
      rfl
  obtain ⟨i, hi⟩ := List.exists_mem_of_ne_nil positions hne
  rw [Edit.removeAll, Edit.invalidated, hall]
  constructor
  · intro c hc
    obtain ⟨_, _, rfl⟩ := List.mem_map.mp hc
    rfl
  · exact List.mem_map.mpr ⟨i, List.mem_eraseDups.mpr (List.mem_mergeSort.mpr hi), rfl⟩

/-! ## Unreachable statements -/

theorem dropUnreachable_step (h : dropUnreachable place w = some (edit, w')) :
    ∃ l before jump after, isJump w.store jump = true ∧ w' = w ∧
      Rewrites w place edit w' l (before ++ jump :: after) (before ++ [jump]) := by
  rw [dropUnreachable] at h
  obtain ⟨items, hitems, h⟩ := Option.bind_eq_some_iff.mp h
  obtain ⟨jump, hjump, h⟩ := Option.bind_eq_some_iff.mp h
  obtain ⟨l, hl, hget⟩ := listField?_eq hitems
  obtain ⟨hlt, hisJump, _⟩ := List.findIdx?_eq_some_iff_getElem.mp hjump
  split at h
  · simp at h
  · rename_i hlast
    obtain ⟨rfl, rfl⟩ := Prod.mk.inj (Option.some.inj h)
    have hsplit : items = items.take jump ++ items[jump] :: items.drop (jump + 1) := by
      rw [List.getElem_cons_drop, List.take_append_drop]
    have hafter : items.drop (jump + 1) ≠ [] := by
      intro hnil
      have := List.drop_eq_nil_iff.mp hnil
      omega
    -- all positions behind the jump go
    have hwithout : without (List.range' (jump + 1) (items.length - (jump + 1))) 0 items =
        items.take jump ++ [items[jump]] := by
      have htail := without_tail (items.take (jump + 1)) (items.drop (jump + 1))
      rw [List.take_append_drop, List.length_take, List.length_drop,
        Nat.min_eq_left (by omega)] at htail
      rw [htail, List.take_append_getElem]
    have hne : (List.range (items.length - (jump + 1))).map
        (fun i : Nat => ((jump + 1 + i : Nat) : Int)) ≠ [] := by
      intro hnil
      have := congrArg List.length hnil
      simp only [List.length_map, List.length_range, List.length_nil] at this
      omega
    obtain ⟨hinvalidated, hplace⟩ := invalidated_removeAll w.store place hne
    refine ⟨l, items.take jump, items[jump], items.drop (jump + 1), hisJump, rfl, hl,
      by rw [← hsplit]; exact hget, .dropped hisJump hafter, ?_, ?_, hplace⟩
    · intro s heditable hs _
      rw [← hsplit] at hs
      rw [positions_eq, Edit.apply_removeAll heditable hs, hwithout]
      intro i hi
      rw [List.mem_range'_1] at hi
      omega
    · exact fun c hc => .inl (hinvalidated c hc)

/-! ## Completions -/

theorem pairFrom?_eq {s : Store} {position : Nat} {items : List (Option Ref)} {pair : Pair}
    (h : pairFrom? s position items = some pair) :
    ∃ before statement next after, items = before ++ statement :: next :: after ∧
      pair.position = position + before.length ∧
      statementExpression? s statement = some pair.first ∧
      completion? s next = some (pair.label, pair.second) := by
  induction items generalizing position with
  | nil => simp [pairFrom?] at h
  | cons item rest ih =>
    cases rest with
    | nil => simp [pairFrom?] at h
    | cons next rest =>
      rw [pairFrom?] at h
      split at h
      · rename_i first label second hitem hnext
        obtain rfl := Option.some.inj h
        exact ⟨[], item, next, rest, rfl, rfl, hitem, hnext⟩
      · obtain ⟨before, statement, next', after, heq, hposition, hst, hnext⟩ := ih h
        refine ⟨item :: before, statement, next', after, by rw [heq]; rfl, ?_, hst, hnext⟩
        simp only [List.length_cons]
        omega

theorem statementExpression?_eq {s : Store} {item e : Option Ref}
    (h : statementExpression? s item = some e) :
    ∃ r, item = some r ∧ s.get r = .node .expressionStatement [e] := by
  rw [statementExpression?] at h
  split at h
  · rename_i e' hget
    obtain rfl := Option.some.inj h
    obtain ⟨r, rfl, hr⟩ := Option.map_eq_some_iff.mp hget
    exact ⟨r, rfl, hr⟩
  · simp at h

theorem completion?_eq {s : Store} {item e : Option Ref} {label : Label}
    (h : completion? s item = some (label, e)) :
    ∃ r, item = some r ∧ s.get r = .node label [e] ∧
      (label = .returnStatement ∧ e.isSome = true ∨ label = .throwStatement) := by
  rw [completion?] at h
  split at h
  · rename_i e' hget
    obtain ⟨rfl, rfl⟩ := Prod.mk.inj (Option.some.inj h)
    obtain ⟨r, rfl, hr⟩ := Option.map_eq_some_iff.mp hget
    exact ⟨r, rfl, hr, .inl ⟨rfl, rfl⟩⟩
  · rename_i e' hget
    obtain ⟨rfl, rfl⟩ := Prod.mk.inj (Option.some.inj h)
    obtain ⟨r, rfl, hr⟩ := Option.map_eq_some_iff.mp hget
    exact ⟨r, rfl, hr, .inr rfl⟩
  · simp at h

/-- A new node is a node. -/
theorem isList_add (w : Workspace) {label : Label} (hown : label.IsOwn)
    (kids : List (Option Ref)) :
    (w.add label kids).2.store.isList (w.add label kids).1 = false := by
  rw [add_own w kids hown]
  simp [Store.isList, push]

/-- Putting a statement in place of two. -/
theorem apply_merge {s : Store} {l n : Ref} {before after : List (Option Ref)}
    {statement next : Option Ref} (h : Edit.Editable pool s place l)
    (hl : s.get l = .list (before ++ statement :: next :: after)) (hn : s.isList n = false)
    (u : Store) :
    (Edit.batch [putAt place (before.length, n),
      .remove (place.index u ((before.length + 1 : Nat) : Int))]).apply (some pool) s =
      (s.refill l (before ++ some n :: after), none) := by
  have hput : (putAt place (before.length, n)).apply (some pool) s =
      (s.refill l (before ++ some n :: next :: after), none) := by
    have hset := Edit.apply_put_item h hl hn (i := before.length) (by simp) u
    rw [List.set_append_right _ _ (Nat.le_refl _), Nat.sub_self] at hset
    exact hset
  have hremove := Edit.apply_remove_item (h.refill l _)
    (Edit.get_refill_list hl (before ++ some n :: next :: after)) (i := before.length + 1)
    (by simp) u
  rw [Edit.refill_refill_list hl, List.eraseIdx_append_of_length_le (by omega),
    Nat.add_sub_cancel_left] at hremove
  rw [Edit.apply, Edit.applyAll, hput]
  dsimp only
  rw [Edit.applyAll, hremove]
  rfl

theorem fuseCompletion_step (h : fuseCompletion place w = some (edit, w')) :
    ∃ l before statement next after first label second,
      statementExpression? w.store statement = some first ∧
      completion? w.store next = some (label, second) ∧
      w' = ((join w first second).2.add label [(join w first second).1]).2 ∧
      Rewrites w place edit w' l (before ++ statement :: next :: after)
        (before ++ some ((join w first second).2.add label [(join w first second).1]).1 ::
          after) := by
  rw [fuseCompletion] at h
  obtain ⟨items, hitems, hrest⟩ := Option.bind_eq_some_iff.mp h
  obtain ⟨pair, hpair, hedit⟩ := Option.bind_eq_some_iff.mp hrest
  obtain ⟨l, hl, hget⟩ := listField?_eq hitems
  obtain ⟨before, statement, next, after, rfl, hposition, hst, hnext⟩ := pairFrom?_eq hpair
  rw [Nat.zero_add] at hposition
  obtain ⟨_, _, _, hlabel⟩ := completion?_eq hnext
  have hown : pair.label.IsOwn := by
    rcases hlabel with ⟨hlabel, _⟩ | hlabel <;> rw [hlabel] <;> exact ⟨by simp, by simp⟩
  have hn := isList_add (join w pair.first pair.second).2 hown [(join w pair.first pair.second).1]
  have hstep : ListStep w (before ++ statement :: next :: after) _ _ := .completed hst hnext
  change some (Edit.batch [putAt place (pair.position, _), .remove (place.index _ _)], _) =
    some (edit, w') at hedit
  obtain ⟨rfl, rfl⟩ := Prod.mk.inj (Option.some.inj hedit)
  rw [hposition]
  refine ⟨l, before, statement, next, after, _, _, _, hst, hnext, rfl, hl, hget, hstep, ?_, ?_, ?_⟩
  · intro s heditable hs hlists
    exact apply_merge heditable hs ((hlists _).trans hn) _
  · intro c hc
    rcases (by simpa [Edit.invalidated, Edit.invalidatedAll, putAt, Cursor.index, Cursor.child,
      Cursor.parent?] using hc : c = _ ∨ c = place) with rfl | rfl
    · exact .inr ⟨_, _, rfl⟩
    · exact .inl rfl
  · simp [Edit.invalidated, Edit.invalidatedAll, Cursor.index, Cursor.child, Cursor.parent?]

/-! ## Fusing runs -/

/-- The edits and the workspace for runs in order. -/
def fuseAll (place : Cursor) (edits : List Edit) (w : Workspace) (runs : List Run) :
    List Edit × Workspace :=
  runs.foldl (fun (edits, w) run =>
    let (edit, w) := run.fuse place w
    (edits ++ [edit], w)) (edits, w)

/-- Runs of two or more. -/
def longRuns (runs : List Run) : List Run := runs.filter fun run => 2 ≤ run.expressions.length

theorem longRuns_cons_long {run : Run} (h : 2 ≤ run.expressions.length) (runs : List Run) :
    longRuns (run :: runs) = run :: longRuns runs :=
  List.filter_cons_of_pos (by simpa using h)

theorem longRuns_cons_short {run : Run} (h : ¬ 2 ≤ run.expressions.length) (runs : List Run) :
    longRuns (run :: runs) = longRuns runs :=
  List.filter_cons_of_neg (by simpa using h)

/-- A run absorbs all its positions but the first. -/
theorem absorbed_eq (position : Nat) (first : Option Ref) (others : List (Option Ref)) :
    Run.absorbed ⟨position, first :: others⟩ =
      (List.range' (position + 1) others.length).map fun i : Nat => (i : Int) :=
  positions_eq (position + 1) others.length

/-- The long runs of a list tell how it is fused. -/
theorem Decomposes.fuses {s : Store} {position : Nat} {items : List (Option Ref)}
    {runs : List Run} (h : Decomposes s position items runs) (place : Cursor) (w : Workspace)
    (edits : List Edit) :
    ∃ puts gone items' w', Fuses s position w items puts gone items' w' ∧
      fuseAll place edits w (longRuns runs) = (edits ++ puts.map (putAt place), w') ∧
      (longRuns runs).flatMap Run.absorbed = gone.map (fun i : Nat => (i : Int)) ∧
      (gone = [] → longRuns runs = []) := by
  induction h generalizing w edits with
  | nil position =>
    exact ⟨[], [], [], w, .nil position w, by simp [fuseAll, longRuns], rfl, fun _ => rfl⟩
  | @skip _ item _ _ hitem _ ih =>
    obtain ⟨puts, gone, items', w', hfuses, hall, hgone, hnone⟩ := ih w edits
    have hapart : ∀ next, together s item next = false := fun next => by simp [together, hitem]
    exact ⟨puts, gone, item :: items', w', .keep item (fun next _ => hapart next) hfuses, hall,
      hgone, hnone⟩
  | @run position chunk rest es runs hne hmap hapart hrest ih =>
    have hlength : chunk.length = es.length := by simpa using congrArg List.length hmap
    by_cases hlong : 2 ≤ es.length
    · -- a run that is fused
      obtain ⟨first, second, others, rfl⟩ :
          ∃ first second others, es = first :: second :: others := by
        match es, hlong with
        | first :: second :: others, _ => exact ⟨first, second, others, rfl⟩
      obtain ⟨puts, gone, items', w', hfuses, hall, hgone, hnone⟩ :=
        ih (fusedStatement w first (second :: others)).2
          (edits ++ [putAt place (position, (fusedStatement w first (second :: others)).1)])
      refine ⟨_, _, _, w', .fuse (List.cons_ne_nil _ _) hmap hapart hfuses, ?_, ?_, ?_⟩
      · rw [longRuns_cons_long hlong, List.map_cons, List.append_cons]
        exact hall
      · rw [longRuns_cons_long hlong, List.flatMap_cons, absorbed_eq, hgone, List.map_append]
      · simp
    · -- a single statement stays
      obtain ⟨item, rfl⟩ : ∃ item, chunk = [item] := by
        have hpos := List.length_pos_iff.mpr hne
        exact List.length_eq_one_iff.mp (by omega)
      obtain ⟨puts, gone, items', w', hfuses, hall, hgone, hnone⟩ := ih w edits
      rw [longRuns_cons_short hlong]
      have halone : ∀ next ∈ rest.head?, together s item next = false := fun next hnext => by
        simp [together, hapart next hnext]
      exact ⟨puts, gone, item :: items', w', .keep item halone hfuses, hall, hgone, hnone⟩

theorem extends_append (w : Workspace) (left : Option Ref) (ls : List (Option Ref)) :
    w.store.Extends (ls.foldl append (left, w)).2.store := by
  induction ls generalizing w left with
  | nil => exact .refl _
  | cons l rest ih =>
    rw [List.foldl_cons]
    exact (w.store.extends_push _).trans (ih (append (left, w) l).2 (append (left, w) l).1)

theorem extends_join (w : Workspace) (left right : Option Ref) :
    w.store.Extends (join w left right).2.store :=
  extends_append w left _

theorem extends_joinAll (w : Workspace) (first : Option Ref) (others : List (Option Ref)) :
    w.store.Extends (joinAll w first others).2.store := by
  induction others generalizing w first with
  | nil => exact .refl _
  | cons e rest ih => exact (extends_join w first e).trans (ih _ _)

/-- Every statement that a fusion puts in place is a node of the workspace it ends with. -/
theorem Fuses.isNode {s : Store} {position : Nat} {w w' : Workspace}
    {items items' : List (Option Ref)} {puts : List (Nat × Ref)} {gone : List Nat}
    (h : Fuses s position w items puts gone items' w') :
    w.store.Extends w'.store ∧ ∀ p ∈ puts, w'.store.isList p.2 = false := by
  induction h with
  | nil position w => exact ⟨.refl _, by simp⟩
  | keep item _ _ ih => exact ih
  | @fuse position w w' chunk others rest rest' first puts gone _ _ _ _ ih =>
    obtain ⟨hext, hnodes⟩ := ih
    have hown : Label.expressionStatement.IsOwn := ⟨by simp, by simp⟩
    have hadd := add_own (joinAll w first others).2 [(joinAll w first others).1] hown
    have hnode := isList_add (joinAll w first others).2 hown [(joinAll w first others).1]
    have hknown : (fusedStatement w first others).2.store.Known
        (fusedStatement w first others).1 := by
      rw [show fusedStatement w first others = _ from hadd]
      exact (joinAll w first others).2.store.next_known _
    refine ⟨((extends_joinAll w first others).trans ?_).trans hext, ?_⟩
    · rw [show fusedStatement w first others = _ from hadd]
      exact (joinAll w first others).2.store.extends_push _
    · intro p hp
      rcases List.mem_cons.mp hp with rfl | hp
      · rw [Store.isList, hext.get _ hknown]
        exact hnode
      · exact hnodes p hp

theorem invalidatedAll_append (edits more : List Edit) :
    Edit.invalidatedAll (edits ++ more) =
      Edit.invalidatedAll edits ++ Edit.invalidatedAll more := by
  induction edits with
  | nil => rfl
  | cons edit rest ih => simp [Edit.invalidatedAll, ih]

theorem mem_invalidated_puts {puts : List (Nat × Ref)} {c : Cursor}
    (h : c ∈ Edit.invalidatedAll (puts.map (putAt place))) :
    ∃ p : Nat × Ref, c = .step place (.index p.1) (some p.2) ∨ c = place := by
  induction puts with
  | nil => simp [Edit.invalidatedAll] at h
  | cons p puts ih =>
    rw [List.map_cons, Edit.invalidatedAll, List.mem_append] at h
    rcases h with h | h
    · exact ⟨p, by simpa [putAt, Edit.invalidated, Cursor.parent?] using h⟩
    · exact ih h

theorem isSome_of_mem_run {s : Store} {chunk es : List (Option Ref)}
    (hmap : chunk.map (statementExpression? s) = es.map some) {item : Option Ref}
    (hitem : item ∈ chunk) : (statementExpression? s item).isSome = true := by
  have hmem := List.mem_map_of_mem (f := statementExpression? s) hitem
  rw [hmap] at hmem
  obtain ⟨e, -, he⟩ := List.mem_map.mp hmem
  rw [← he]
  rfl

/-- A fusion removes nothing if and only if no two neighbours are expression statements. -/
theorem Fuses.gone_eq_nil_iff {s : Store} {position : Nat} {w w' : Workspace}
    {items items' : List (Option Ref)} {puts : List (Nat × Ref)} {gone : List Nat}
    (h : Fuses s position w items puts gone items' w') :
    gone = [] ↔ items.IsChain fun a b => together s a b = false := by
  induction h with
  | nil position w => simp
  | keep item happart hrest ih => rw [List.isChain_cons, ih, and_iff_right happart]
  | @fuse position w w' chunk others rest rest' first puts gone hne hmap hapart hrest ih =>
    obtain ⟨other, others, rfl⟩ := List.exists_cons_of_ne_nil hne
    obtain ⟨a, chunk, rfl, -, hchunk⟩ := List.map_eq_cons_iff.mp hmap
    obtain ⟨b, chunk, rfl, -, -⟩ := List.map_eq_cons_iff.mp hchunk
    have ha : (statementExpression? s a).isSome = true := isSome_of_mem_run hmap (by simp)
    have hb : (statementExpression? s b).isSome = true := isSome_of_mem_run hmap (by simp)
    refine iff_of_false (by simp) fun hchain => ?_
    have hab : together s a b = false := (List.isChain_cons_cons.mp hchain).1
    simp [together, ha, hb] at hab

/-- There is something to fuse if and only if two neighbours are expression statements. -/
theorem fuseRuns_isSome_iff {items : List (Option Ref)}
    (hitems : listField? w.store place = some items) :
    (fuseRuns place w).isSome = true ↔
      ¬ items.IsChain fun a b => together w.store a b = false := by
  obtain ⟨puts, gone, items', w', hfuses, -, hgone, hnone⟩ :=
    (decomposes_runsFrom w.store 0 items).fuses place w []
  have hlong : longRuns (runsFrom w.store 0 items) = [] ↔ gone = [] := by
    refine ⟨fun hnil => ?_, hnone⟩
    rw [hnil] at hgone
    simpa using hgone.symm
  rw [← hfuses.gone_eq_nil_iff, ← hlong, fuseRuns, hitems]
  dsimp only [Option.bind_eq_bind, Option.bind_some]
  change (if (longRuns (runsFrom w.store 0 items)).isEmpty then none else _).isSome = true ↔ _
  split
  · simp_all
  · simp_all

/-- The edits of a fusion: the new statements are put, and the absorbed ones are removed from the
list so marked. -/
theorem Marks.apply {puts : List (Nat × Ref)} {gone : List Nat}
    {items marked items' : List (Option Ref)} (h : Marks 0 items puts gone marked items')
    {s : Store} {l : Ref} (heditable : Edit.Editable pool s place l) (hs : s.get l = .list items)
    (hnodes : ∀ p ∈ puts, s.isList p.2 = false) (t : Store) :
    (Edit.batch (puts.map (putAt place) ++
      [.removeAll t place (gone.map fun i : Nat => (i : Int))])).apply (some pool) s =
        (s.refill l items', none) := by
  have hin : ∀ p ∈ puts, p.1 < items.length ∧ s.isList p.2 = false := fun p hp =>
    ⟨by simpa using h.puts_bound p hp, hnodes p hp⟩
  have hmarked := applyAll_puts heditable hs hin 0
  rw [show putAll puts items = marked from by simpa using h.put [] rfl] at hmarked
  have hlt : ∀ i ∈ gone, i < marked.length := by
    intro i hi
    have := h.gone_bound i hi
    rw [h.length]
    omega
  have hremove := Edit.apply_removeAll (heditable.refill l marked)
    (Edit.get_refill_list hs marked) hlt t
  rw [Edit.refill_refill_list hs, h.remain] at hremove
  rw [Edit.apply, Edit.applyAll_append hmarked, Edit.applyAll, hremove]
  rfl

/-- A fusion touches the list and the places of its new statements. -/
theorem invalidated_fusion (place : Cursor) (puts : List (Nat × Ref)) (t : Store)
    {positions : List Int} (hpositions : positions ≠ []) :
    (∀ c ∈ (Edit.batch (puts.map (putAt place) ++ [.removeAll t place positions])).invalidated,
      c = place ∨ ∃ (i : Nat) (n : Ref), c = .step place (.index i) (some n)) ∧
    place ∈ (Edit.batch (puts.map (putAt place) ++ [.removeAll t place positions])).invalidated := by
  obtain ⟨hinvalidated, hplace⟩ := invalidated_removeAll t place hpositions
  constructor
  · intro c hc
    rw [Edit.invalidated, invalidatedAll_append, List.mem_append] at hc
    rcases hc with hc | hc
    · obtain ⟨p, rfl | rfl⟩ := mem_invalidated_puts hc
      · exact .inr ⟨_, _, rfl⟩
      · exact .inl rfl
    · exact .inl (hinvalidated c (by simpa [Edit.invalidatedAll] using hc))
  · rw [Edit.invalidated, invalidatedAll_append, List.mem_append]
    exact .inr (by simpa [Edit.invalidatedAll] using hplace)

theorem fuseRuns_step (h : fuseRuns place w = some (edit, w')) :
    ∃ l items items' puts gone, Fuses w.store 0 w items puts gone items' w' ∧
      Rewrites w place edit w' l items items' := by
  rw [fuseRuns] at h
  obtain ⟨items, hitems, hrest⟩ := Option.bind_eq_some_iff.mp h
  obtain ⟨l, hl, hget⟩ := listField?_eq hitems
  obtain ⟨puts, gone, items', w2, hfuses, hall, hgone, hnone⟩ :=
    (decomposes_runsFrom w.store 0 items).fuses place w []
  change (if (longRuns (runsFrom w.store 0 items)).isEmpty then none else
    some (Edit.batch ((fuseAll place [] w (longRuns (runsFrom w.store 0 items))).1 ++
      [.removeAll (fuseAll place [] w (longRuns (runsFrom w.store 0 items))).2.store place
        ((longRuns (runsFrom w.store 0 items)).flatMap Run.absorbed)]),
      (fuseAll place [] w (longRuns (runsFrom w.store 0 items))).2)) = some (edit, w') at hrest
  rw [hall, hgone, List.nil_append] at hrest
  -- without a run of several statements there is no fusion
  have hgone' : gone ≠ [] := by
    intro hnil
    simp [hnone hnil] at hrest
  have hedit : some (Edit.batch (puts.map (putAt place) ++
      [.removeAll w2.store place (gone.map fun i : Nat => (i : Int))]), w2) = some (edit, w') := by
    split at hrest
    · simp at hrest
    · exact hrest
  obtain ⟨rfl, rfl⟩ := Prod.mk.inj (Option.some.inj hedit)
  obtain ⟨marked, hmarks⟩ := hfuses.marks
  obtain ⟨_, hnodes⟩ := hfuses.isNode
  have hpositions : gone.map (fun i : Nat => (i : Int)) ≠ [] := by simpa using hgone'
  obtain ⟨hinvalidated, hplace⟩ := invalidated_fusion place puts w2.store hpositions
  refine ⟨l, items, items', puts, gone, hfuses, hl, hget, .fused hgone' hfuses, ?_, hinvalidated,
    hplace⟩
  intro s heditable hs hlists
  exact hmarks.apply heditable hs (fun p hp => (hlists _).trans (hnodes p hp)) w2.store

end Sequences

end ScriptSimplifier
