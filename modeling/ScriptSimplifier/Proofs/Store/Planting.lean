import ScriptSimplifier.Proofs.Store.Growth

/-!
# Planting trees

Planting a well-formed tree in a store of trees gives a store of trees again, from which the same
tree is read back, and all its elements but empty statements and nulls are new cells, each reached
once.
-/

namespace ScriptSimplifier

namespace Store

/-- The nodes that every store has. -/
def isFixed (r : Ref) : Bool := r == .emptyStatement || r == .null

/-- What planting some trees does to a store. -/
structure Plants (strict : Strictness) (s s' : Store) (es : List (Option Ref)) (ts : List Tree) :
    Prop where
  ext : s.Extends s'
  orderly : s'.Orderly strict
  known : ∀ e ∈ es, s'.KnownAt e
  trees : es.map s'.tree = ts
  census : s'.censusAll isFixed es ≤ s.since s'

variable {strict : Strictness}

/-- A new element over what was planted. -/
theorem Plants.push {s s' : Store} {es : List (Option Ref)} {ts : List Tree} {t : Tree} {c : Cell}
    (h : Plants strict s s' es ts) (hc : c.below = es)
    (hnode : ∀ label kids, c = .node label kids → s'.NodeTyped strict label kids)
    (ht : (s'.push c).assemble s'.next ts = t) :
    Plants strict s (s'.push c) [some s'.next] [t] := by
  have horderly := h.orderly.push (c := c) (by rw [hc]; exact h.known) hnode
  have hext := s'.extends_push c
  have hbelow : (s'.push c).below s'.next = es := by
    rw [below, get_push_next, hc]
  have htrees : es.map (s'.push c).tree = ts := by
    rw [← h.trees]
    refine List.map_congr_left fun e he => ?_
    exact hext.tree h.orderly.acyclic h.orderly.closed horderly.acyclic (h.known e he)
  have hcensus : (s'.push c).censusAll isFixed es = s'.censusAll isFixed es := by
    rw [censusAll, tallyAll, censusAll, tallyAll]
    congr 1
    refine List.map_congr_left fun e he => ?_
    exact hext.tally h.orderly.acyclic h.orderly.closed horderly.acyclic (fun _ _ => rfl)
      (fun _ _ => rfl) (h.known e he)
  refine ⟨h.ext.trans hext, horderly, ?_, ?_, ?_⟩
  · intro e he
    obtain rfl : e = some s'.next := by simpa using he
    exact knownAt_some.mpr (s'.next_known c)
  · rw [List.map_singleton, horderly.acyclic.tree_some, hbelow, htrees, ht]
  · rw [censusAll_cons, censusAll_nil, add_zero, census_own horderly.acyclic rfl, hbelow, hcensus,
      ← since_add h.ext.size hext.size, since_push, ← Multiset.singleton_add, add_comm]
    exact Multiset.add_le_add_right h.census

theorem Plants.cons {s s' s'' : Store} {e : Option Ref} {es : List (Option Ref)} {t : Tree}
    {ts : List Tree} (h : Plants strict s s' [e] [t]) (hrest : Plants strict s' s'' es ts) :
    Plants strict s s'' (e :: es) (t :: ts) := by
  have he : s'.KnownAt e := h.known e List.mem_cons_self
  have hs := h.orderly
  refine ⟨h.ext.trans hrest.ext, hrest.orderly, ?_, ?_, ?_⟩
  · intro e' he'
    rcases List.mem_cons.mp he' with rfl | he'
    · exact hrest.ext.knownAt he
    · exact hrest.known e' he'
  · have htree : s'.tree e = t := by simpa using h.trees
    rw [List.map_cons, hrest.trees,
      hrest.ext.tree hs.acyclic hs.closed hrest.orderly.acyclic he, htree]
  · have hcensus : s''.census isFixed e = s'.census isFixed e :=
      hrest.ext.tally hs.acyclic hs.closed hrest.orderly.acyclic (fun _ _ => rfl)
        (fun _ _ => rfl) he
    have hle : s'.census isFixed e ≤ s.since s' := by simpa using h.census
    rw [censusAll_cons, hcensus, ← since_add h.ext.size hrest.ext.size]
    exact add_le_add hle hrest.census

theorem plants_plantAll {ts : List Tree}
    (hts : ∀ t ∈ ts, ∀ s : Store, s.Orderly strict →
      Plants strict s (s.plant t).2 [(s.plant t).1] [t]) {s : Store} (hs : s.Orderly strict) :
    Plants strict s (s.plantAll ts).2 (s.plantAll ts).1 ts := by
  induction ts generalizing s with
  | nil =>
    rw [plantAll]
    exact ⟨.refl s, hs, by simp, rfl, by simp⟩
  | cons t rest ih =>
    rw [plantAll]
    have hhead := hts t List.mem_cons_self s hs
    exact hhead.cons (ih (fun u hu => hts u (List.mem_cons_of_mem _ hu)) hhead.orderly)

/-- A new node over its planted children. -/
theorem Plants.node {s s' : Store} {label : Label} {children : List Tree} {es : List (Option Ref)}
    (h : Plants strict s s' es children)
    (hnode : Tree.nodeWellFormed strict label children = true) :
    Plants strict s (s'.push (.node label es)) [some s'.next] [.node label children] := by
  obtain ⟨hoperator, hlength, hfits⟩ := nodeWellFormed_iff.mp hnode
  refine h.push rfl ?_ (by simp [assemble])
  intro label' kids heq
  obtain ⟨rfl, rfl⟩ := Cell.node.inj heq
  refine ⟨hoperator, ?_, fun p hp => ?_⟩
  · rw [← hlength, ← h.trees, List.length_map]
  · rw [Tree.nodeFits, ← h.trees, List.zip_map_right, List.all_map, List.all_eq_true] at hfits
    rw [← admits_tree h.orderly.acyclic]
    exact hfits p hp

/-- A node that every store has: nothing is added for it. -/
theorem plants_shared {s : Store} (hs : s.Orderly strict) {label : Label} (hown : ¬ label.IsOwn) :
    Plants strict s (s.add (.node label [])).2 [some (s.add (.node label [])).1]
      [.node label []] := by
  rcases Label.shared_of_not_own hown with rfl | rfl
  · refine ⟨.refl s, hs, by simp [add, Known], ?_, ?_⟩
    · simp [add, hs.acyclic.tree_some, assemble, below, Cell.below]
    · -- shared nodes are not counted
      simp [add, census_shared hs.acyclic (show isFixed .emptyStatement = true from rfl)]
  · refine ⟨.refl s, hs, by simp [add, Known], ?_, ?_⟩
    · simp [add, hs.acyclic.tree_some, assemble, below, Cell.below]
    · simp [add, census_shared hs.acyclic (show isFixed .null = true from rfl)]

/-- Planting a tree of well-formed nodes. -/
theorem plants_plant {t : Tree} (ht : t.allNodes (Tree.nodeWellFormed strict) = true) {s : Store}
    (hs : s.Orderly strict) : Plants strict s (s.plant t).2 [(s.plant t).1] [t] := by
  induction t using Tree.induction generalizing s with
  | missing =>
    rw [plant]
    exact ⟨.refl s, hs, by simp, by simp, by simp⟩
  | list items ih =>
    rw [plant]
    have hitems := plants_plantAll (fun t hmem s hs => ih t hmem (allNodes_list.mp ht t hmem) hs) hs
    refine hitems.push rfl (by simp) ?_
    simp [assemble]
  | node label children ih =>
    rw [plant]
    obtain ⟨hnode, hbelow⟩ := allNodes_node.mp ht
    have hchildren := plants_plantAll (fun t hmem s hs => ih t hmem (hbelow t hmem) hs) hs
    by_cases hown : label.IsOwn
    · dsimp only
      rw [add_node _ _ hown]
      exact hchildren.node hnode
    · -- the shared nodes have no children
      obtain rfl : children = [] := by
        have hlength := (nodeWellFormed_iff.mp hnode).2.1
        rcases Label.shared_of_not_own hown with rfl | rfl <;>
          exact List.length_eq_zero_iff.mp hlength
      rw [plantAll]
      exact plants_shared hs hown

theorem orderly_empty : Store.empty.Orderly strict := by
  have hholds : ∀ p c, ¬ Store.empty.Holds p c := by
    intro p c h
    obtain ⟨n, rfl, hn⟩ := h.cell
    simp [Store.empty] at hn
  refine ⟨⟨fun r => Acc.intro r fun c hc => absurd hc (hholds r c)⟩,
    fun p c h => absurd h (hholds p c), ?_⟩
  intro r label kids hr
  have hget : Store.empty.get r = .node .emptyStatement [] ∨
      Store.empty.get r = .node .nullLiteral [] := by
    cases r with
    | emptyStatement => exact .inl rfl
    | null => exact .inr rfl
    | cell n => exact .inl rfl
  rcases hget with hget | hget
  all_goals
    rw [hget] at hr
    obtain ⟨rfl, rfl⟩ := Cell.node.inj hr
    exact ⟨fun _ => rfl, rfl, by simp⟩

end Store

end ScriptSimplifier
