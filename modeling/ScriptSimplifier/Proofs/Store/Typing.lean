import ScriptSimplifier.Proofs.Store.Acyclic
import ScriptSimplifier.Proofs.Syntax.WellFormed

/-!
# Typed stores

A store is *typed* if each of its nodes obeys the schema as far as the node's own places tell.  In
an acyclic store this makes every tree of the store well-formed (`Typed.wellFormed`), and unlike
the latter it can be checked one element at a time: an element may be added if its own places are
right, and changed if the new content fits wherever the old one did (`Typed.push`, `Typed.set`).
-/

namespace ScriptSimplifier

/-- A kind belongs to one category. -/
theorem Category.eq_of_accepts {a b : Category} {k : Kind} (ha : a.accepts k = true)
    (hb : b.accepts k = true) : a = b := by
  cases a <;> cases b <;> cases k <;>
    first | rfl | exact absurd ha (by decide) | exact absurd hb (by decide)

namespace Store

/-! ## Places -/

/-- Whether a place holds a node of a category. -/
def isIn (s : Store) (c : Category) (e : Option Ref) : Bool := (e.bind s.kind?).any c.accepts

/-- Whether a field may hold what a place holds. -/
def admits (s : Store) (strict : Strictness) (f : Field) : Option Ref → Bool
  | none => !f.isList && (f.optional || !strict.complete)
  | some r =>
    match s.get r with
    | .list items => f.isList && items.all (s.isIn f.accepts)
    | .node label _ => !f.isList && f.accepts.accepts label.kind

/-- A node with these places obeys the schema. -/
structure NodeTyped (s : Store) (strict : Strictness) (label : Label) (kids : List (Option Ref)) :
    Prop where
  operator : strict.operators = true → label.hasOperator = true
  length : kids.length = label.fields.length
  admits : ∀ p ∈ label.fields.zip kids, s.admits strict p.1 p.2 = true

/-- Every node obeys the schema. -/
def Typed (s : Store) (strict : Strictness) : Prop :=
  ∀ r label kids, s.get r = .node label kids → s.NodeTyped strict label kids

theorem kind?_node {s : Store} {r : Ref} {label : Label} {kids : List (Option Ref)}
    (h : s.get r = .node label kids) : s.kind? r = some label.kind := by
  simp [kind?, label?, h]

theorem kind?_list {s : Store} {r : Ref} {items : List (Option Ref)}
    (h : s.get r = .list items) : s.kind? r = none := by
  simp [kind?, label?, h]

/-- A place that holds a node of a category. -/
theorem isIn_iff {s : Store} {c : Category} {e : Option Ref} :
    s.isIn c e = true ↔
      ∃ r label kids, e = some r ∧ s.get r = .node label kids ∧ c.accepts label.kind = true := by
  cases e with
  | none => simp [isIn]
  | some r =>
    cases hr : s.get r with
    | node label kids => simp [isIn, kind?_node hr, hr]
    | list items => simp [isIn, kind?_list hr, hr]

/-- A field for one node holds nothing or a node of its category. -/
theorem admits_single {s : Store} {strict : Strictness} {f : Field} {e : Option Ref}
    (hf : f.isList = false) :
    s.admits strict f e = true ↔
      (e = none ∧ (strict.complete = true → f.optional = true)) ∨ s.isIn f.accepts e = true := by
  cases e with
  | none => cases hc : strict.complete <;> simp [admits, hf, isIn, hc]
  | some r =>
    cases hr : s.get r with
    | node label kids => simp [admits, hr, hf, isIn, kind?_node hr]
    | list items => simp [admits, hr, hf, isIn, kind?_list hr]

/-- A field for a list holds a list with nodes of its category. -/
theorem admits_list {s : Store} {strict : Strictness} {f : Field} {e : Option Ref}
    (hf : f.isList = true) :
    s.admits strict f e = true ↔
      ∃ r items, e = some r ∧ s.get r = .list items ∧
        ∀ item ∈ items, s.isIn f.accepts item = true := by
  cases e with
  | none => simp [admits, hf]
  | some r =>
    cases hr : s.get r with
    | node label kids => simp [admits, hr, hf]
    | list items => simp [admits, hr, hf]

/-- A field that holds a node is a field for one node of its category. -/
theorem admits_node {s : Store} {strict : Strictness} {f : Field} {r : Ref}
    (hr : s.isList r = false) :
    s.admits strict f (some r) = true ↔ f.isList = false ∧ s.isIn f.accepts (some r) = true := by
  cases hget : s.get r with
  | node label kids => simp [admits, hget, isIn, kind?_node hget]
  | list items => simp [isList, hget] at hr

/-! ## Trees of a typed store -/

theorem isIn_tree {s : Store} (hs : s.Acyclic) (c : Category) (e : Option Ref) :
    (s.tree e).isIn c = s.isIn c e := by
  cases e with
  | none => simp [Tree.isIn, Tree.kind?, isIn]
  | some r =>
    cases hr : s.get r with
    | node label kids => simp [hs.tree_node hr, Tree.isIn, Tree.kind?, isIn, kind?_node hr]
    | list items => simp [hs.tree_list hr, Tree.isIn, Tree.kind?, isIn, kind?_list hr]

theorem admits_tree {s : Store} (hs : s.Acyclic) (strict : Strictness) (f : Field)
    (e : Option Ref) :
    f.admits strict (s.tree e) = s.admits strict f e := by
  cases e with
  | none => simp [Field.admits, admits]
  | some r =>
    cases hr : s.get r with
    | node label kids => simp [hs.tree_node hr, Field.admits, admits, hr]
    | list items =>
      simp [hs.tree_list hr, Field.admits, admits, hr, Function.comp_def, isIn_tree hs]

theorem NodeTyped.nodeWellFormed {s : Store} {strict : Strictness} {label : Label}
    {kids : List (Option Ref)} (h : s.NodeTyped strict label kids) (hs : s.Acyclic) :
    Tree.nodeWellFormed strict label (kids.map s.tree) = true := by
  rw [nodeWellFormed_iff]
  refine ⟨h.operator, by simpa using h.length, ?_⟩
  rw [Tree.nodeFits, List.zip_map_right, List.all_map, List.all_eq_true]
  intro p hp
  simpa [admits_tree hs] using h.admits p hp

theorem Typed.allNodes {s : Store} {strict : Strictness} (ht : s.Typed strict) (hs : s.Acyclic)
    (e : Option Ref) : (s.tree e).allNodes (Tree.nodeWellFormed strict) = true := by
  cases e with
  | none => simp [Tree.allNodes]
  | some r =>
    induction r using hs.induction with
    | step r ih =>
      have hbelow : ∀ kids, s.below r = kids →
          ∀ t ∈ kids.map s.tree, t.allNodes (Tree.nodeWellFormed strict) = true := by
        intro kids hkids t hmem
        obtain ⟨e, he, rfl⟩ := List.mem_map.mp hmem
        cases e with
        | none => simp [Tree.allNodes]
        | some c => exact ih c (by rw [Holds, hkids]; exact he)
      cases hr : s.get r with
      | node label kids =>
        rw [hs.tree_node hr, allNodes_node]
        exact ⟨(ht r label kids hr).nodeWellFormed hs, hbelow kids (by rw [below, hr]; rfl)⟩
      | list items =>
        rw [hs.tree_list hr, allNodes_list]
        exact hbelow items (by rw [below, hr]; rfl)

/-- The tree of a node of a typed store is well-formed. -/
theorem Typed.wellFormed {s : Store} {strict : Strictness} (ht : s.Typed strict) (hs : s.Acyclic)
    {r : Ref} (hr : s.isList r = false) : (s.tree (some r)).isWellFormed strict = true := by
  have hall := ht.allNodes hs (some r)
  cases hget : s.get r with
  | node label kids =>
    rw [hs.tree_node hget] at hall ⊢
    simp [Tree.isWellFormed, Tree.kind?, hall]
  | list items => simp [isList, hget] at hr

/-! ## Staying typed -/

/-- A place admits the same in a store that reads the same there. -/
theorem admits_congr {s t : Store} {strict : Strictness} {f : Field} {e : Option Ref}
    (hget : ∀ r, e = some r → t.get r = s.get r)
    (hkind : ∀ r c, e = some r → s.Holds r c → t.kind? c = s.kind? c) :
    t.admits strict f e = s.admits strict f e := by
  cases e with
  | none => rfl
  | some r =>
    simp only [admits, hget r rfl]
    cases hr : s.get r with
    | node label kids => rfl
    | list items =>
      have hitems : items.all (t.isIn f.accepts) = items.all (s.isIn f.accepts) := by
        rw [Bool.eq_iff_iff, List.all_eq_true, List.all_eq_true]
        refine forall₂_congr fun item hitem => ?_
        cases item with
        | none => rfl
        | some c =>
          have hc : s.Holds r c := by
            rw [Holds, below, hr]
            exact hitem
          simp [isIn, hkind r c rfl hc]
      simp only [hitems]

theorem NodeTyped.congr {s t : Store} {strict : Strictness} {label : Label}
    {kids : List (Option Ref)} (h : s.NodeTyped strict label kids)
    (hadmits : ∀ f e, e ∈ kids → s.admits strict f e = true → t.admits strict f e = true) :
    t.NodeTyped strict label kids :=
  ⟨h.operator, h.length, fun p hp =>
    hadmits p.1 p.2 (List.of_mem_zip hp).2 (h.admits p hp)⟩

/-- What is known is typed alike in a larger store. -/
theorem NodeTyped.push {s : Store} {strict : Strictness} {label : Label} {kids : List (Option Ref)}
    (h : s.NodeTyped strict label kids) (hc : s.Closed) (hknown : ∀ k, some k ∈ kids → s.Known k)
    (c : Cell) : (s.push c).NodeTyped strict label kids := by
  refine h.congr fun f e he hadmits => ?_
  rw [admits_congr (s := s) (t := s.push c)]
  · exact hadmits
  · rintro r rfl
    exact get_push c (hknown r he)
  · rintro r k rfl hk
    simp only [kind?, label?, get_push c (hc r k hk)]

theorem Typed.push {s : Store} {strict : Strictness} (ht : s.Typed strict) (hc : s.Closed)
    {c : Cell}
    (hknown : ∀ k, some k ∈ c.below → s.Known k)
    (hnode : ∀ label kids, c = .node label kids → s.NodeTyped strict label kids) :
    (s.push c).Typed strict := by
  intro r label kids hr
  by_cases hk : s.Known r
  · rw [get_push c hk] at hr
    refine (ht r label kids hr).push hc (fun k hk' => hc r k ?_) c
    rw [Holds, below, hr]
    exact hk'
  · by_cases hk' : (s.push c).Known r
    · rcases hk'.of_push with rfl | hk''
      · rw [get_push_next] at hr
        refine (hnode label kids hr).push hc (fun k hmem => hknown k ?_) c
        rw [hr]
        exact hmem
      · exact absurd hk'' hk
    · rw [get_unknown hk'] at hr
      obtain ⟨rfl, rfl⟩ := Cell.node.inj hr
      exact ⟨fun _ => rfl, rfl, by simp⟩

/-! ## New content -/

/-- New content leaves every element the kind that it had. -/
theorem kind?_set_refill {s : Store} {n : Nat} (hn : n < s.cells.size) (kids : List (Option Ref))
    (r : Ref) : (s.set (.cell n) ((s.get (.cell n)).refill kids)).kind? r = s.kind? r := by
  by_cases hr : r = .cell n
  · subst hr
    rw [kind?, label?, get_set_self _ hn, kind?, label?]
    cases s.get (.cell n) <;> rfl
  · rw [kind?, label?, get_set_ne _ hr, kind?, label?]

theorem isIn_set_refill {s : Store} {n : Nat} (hn : n < s.cells.size) (kids : List (Option Ref))
    (c : Category) (e : Option Ref) :
    (s.set (.cell n) ((s.get (.cell n)).refill kids)).isIn c e = s.isIn c e := by
  cases e <;> simp [isIn, kind?_set_refill hn]

/-- What a field may hold it may still hold, if the items of a list stay in their categories. -/
theorem admits_set_refill {s : Store} {n : Nat} (hn : n < s.cells.size) {kids : List (Option Ref)}
    {strict : Strictness} {f : Field} {e : Option Ref}
    (hlist : ∀ items category, s.get (.cell n) = .list items →
      (∀ e ∈ items, s.isIn category e = true) → ∀ e ∈ kids, s.isIn category e = true)
    (he : s.admits strict f e = true) :
    (s.set (.cell n) ((s.get (.cell n)).refill kids)).admits strict f e = true := by
  cases hf : f.isList with
  | false =>
    rw [admits_single hf] at he ⊢
    rwa [isIn_set_refill hn]
  | true =>
    rw [admits_list hf] at he ⊢
    obtain ⟨r, items, rfl, hr, hitems⟩ := he
    simp only [isIn_set_refill hn]
    by_cases hrn : r = .cell n
    · -- a list that was refilled
      subst hrn
      exact ⟨.cell n, kids, rfl, by rw [get_set_self _ hn, hr, Cell.refill],
        hlist items f.accepts hr hitems⟩
    · exact ⟨r, items, rfl, by rw [get_set_ne _ hrn, hr], hitems⟩

/-- New content for an element keeps the store typed if a node still obeys the schema and the items
of a list are in every category in which all items were before. -/
theorem Typed.set {s : Store} {strict : Strictness} (ht : s.Typed strict) {n : Nat}
    (hn : n < s.cells.size) {kids : List (Option Ref)}
    (hnode : ∀ label old, s.get (.cell n) = .node label old → s.NodeTyped strict label kids)
    (hlist : ∀ items category, s.get (.cell n) = .list items →
      (∀ e ∈ items, s.isIn category e = true) → ∀ e ∈ kids, s.isIn category e = true) :
    (s.set (.cell n) ((s.get (.cell n)).refill kids)).Typed strict := by
  intro r label kids' hr
  by_cases hrn : r = .cell n
  · subst hrn
    rw [get_set_self _ hn] at hr
    cases hold : s.get (.cell n) with
    | list items =>
      rw [hold] at hr
      cases hr
    | node label' old =>
      have hrefilled : Cell.node label' kids = .node label kids' := by rwa [hold] at hr
      obtain ⟨rfl, rfl⟩ := Cell.node.inj hrefilled
      rw [← hold]
      exact (hnode label' old hold).congr fun f e _ => admits_set_refill hn hlist
  · rw [get_set_ne _ hrn] at hr
    exact (ht r label kids' hr).congr fun f e _ => admits_set_refill hn hlist

/-! ## Nodes by the number of their fields -/

variable {s : Store} {strict : Strictness} {label : Label} {kids : List (Option Ref)}

/-- What a node holds stands in one of its fields. -/
theorem NodeTyped.exists_field (h : s.NodeTyped strict label kids) {e : Option Ref}
    (he : e ∈ kids) :
    ∃ f ∈ label.fields, s.admits strict f e = true := by
  obtain ⟨i, hi⟩ := List.mem_iff_getElem?.mp he
  have hlt : i < label.fields.length := by
    rw [← h.length]
    exact (List.getElem?_eq_some_iff.mp hi).1
  have hmem : (label.fields[i], e) ∈ label.fields.zip kids :=
    List.mem_iff_getElem?.mpr ⟨i, List.getElem?_zip_eq_some.mpr ⟨List.getElem?_eq_getElem hlt, hi⟩⟩
  exact ⟨_, List.getElem_mem hlt, h.admits _ hmem⟩

theorem NodeTyped.one (h : s.NodeTyped strict label kids) {f : Field}
    (hf : label.fields = [f]) : ∃ a, kids = [a] ∧ s.admits strict f a = true := by
  have hlength := h.length
  rw [hf] at hlength
  obtain ⟨a, rfl⟩ := List.length_eq_one_iff.mp hlength
  exact ⟨a, rfl, h.admits (f, a) (by simp [hf])⟩

theorem NodeTyped.two (h : s.NodeTyped strict label kids) {f g : Field}
    (hf : label.fields = [f, g]) :
    ∃ a b, kids = [a, b] ∧ s.admits strict f a = true ∧ s.admits strict g b = true := by
  have hlength := h.length
  rw [hf] at hlength
  obtain ⟨a, b, rfl⟩ := List.length_eq_two.mp hlength
  exact ⟨a, b, rfl, h.admits (f, a) (by simp [hf]), h.admits (g, b) (by simp [hf])⟩

theorem NodeTyped.three (h : s.NodeTyped strict label kids) {f g i : Field}
    (hf : label.fields = [f, g, i]) :
    ∃ a b c, kids = [a, b, c] ∧ s.admits strict f a = true ∧ s.admits strict g b = true ∧
      s.admits strict i c = true := by
  have hlength := h.length
  rw [hf] at hlength
  obtain ⟨a, b, c, rfl⟩ := List.length_eq_three.mp hlength
  exact ⟨a, b, c, rfl, h.admits (f, a) (by simp [hf]), h.admits (g, b) (by simp [hf]),
    h.admits (i, c) (by simp [hf])⟩

end Store

end ScriptSimplifier
