import ScriptSimplifier.Proofs.Rule.Building
import ScriptSimplifier.Rule.Catalog

/-!
# What simplifications look at

Whether a simplification proposes something at a place depends only on the elements at and below the
place and on the label of the element above it.  So two workspaces that agree there give the same
answer (`Agrees.propose`).
-/

namespace ScriptSimplifier

open Workspace Sequences Statements Folding

/-- Two workspaces have the same elements and values in a part that is closed under holding. -/
structure Agrees (w u : Workspace) (P : Ref → Prop) : Prop where
  closed : ∀ p c, P p → w.store.Holds p c → P c
  get : ∀ r, P r → u.store.get r = w.store.get r
  value : ∀ r, P r → u.pool.valueOf? r = w.pool.valueOf? r

namespace Agrees

variable {w u : Workspace} {P : Ref → Prop}

/-! ## Elements -/

/-- What stands in a place of an element of the part is in the part. -/
theorem below (h : Agrees w u P) {r : Ref} (hr : P r) {kids : List (Option Ref)}
    (hkids : w.store.below r = kids) {c : Ref} (hc : some c ∈ kids) : P c :=
  h.closed r c hr (by rw [Store.Holds, hkids]; exact hc)

theorem isList (h : Agrees w u P) {r : Ref} (hr : P r) :
    u.store.isList r = w.store.isList r := by
  rw [Store.isList, h.get r hr, Store.isList]

theorem kind? (h : Agrees w u P) {r : Ref} (hr : P r) : u.store.kind? r = w.store.kind? r := by
  simp only [Store.kind?, Store.label?, h.get r hr]

theorem isConstant (h : Agrees w u P) {r : Ref} (hr : P r) :
    u.pool.isConstant (some r) = w.pool.isConstant (some r) := by
  simp [Pool.isConstant, h.value r hr]

theorem node? (h : Agrees w u P) {c : Cursor} (hc : ∀ r, c.element = some r → P r) :
    c.node? u.store = c.node? w.store := by
  rw [Cursor.node?, Cursor.node?]
  cases hr : c.element with
  | none => rfl
  | some r => simp [Option.filter, h.isList (hc r hr)]

theorem list? (h : Agrees w u P) {c : Cursor} (hc : ∀ r, c.element = some r → P r) :
    c.list? u.store = c.list? w.store := by
  rw [Cursor.list?, Cursor.list?]
  cases hr : c.element with
  | none => rfl
  | some r => simp [Option.filter, h.isList (hc r hr)]

theorem child (h : Agrees w u P) {r : Ref} (hr : P r) (name : String) :
    u.store.child r name = w.store.child r name :=
  Store.child_congr (h.get r hr) name

theorem child_mem (h : Agrees w u P) {r c : Ref} (hr : P r) {name : String}
    (hc : w.store.child r name = some c) : P c :=
  h.closed r c hr (Store.holds_child hc)

theorem itemsOf (h : Agrees w u P) {e : Option Ref} (he : ∀ r, e = some r → P r) :
    u.store.itemsOf e = w.store.itemsOf e := by
  cases e with
  | none => rfl
  | some r => simp only [Store.itemsOf, Option.bind_some, Store.items?, h.get r (he r rfl)]

/-- The value of an element of the part. -/
theorem valueOf? (h : Agrees w u P) {e : Option Ref} (he : ∀ r, e = some r → P r) :
    u.valueOf? e = w.valueOf? e := by
  cases e with
  | none => rfl
  | some r =>
    have hr := he r rfl
    simp only [Workspace.valueOf?, Option.bind_eq_bind, Option.bind_some, h.value r hr,
      h.get r hr]
    cases w.pool.valueOf? r with
    | some v => rfl
    | none =>
      cases hget : w.store.get r with
      | list items => rfl
      | node label kids =>
        cases label
        case unaryExpression operator =>
          rcases kids with _ | ⟨_ | o, _ | ⟨_, _⟩⟩
          case cons.some.nil =>
            have ho : P o :=
              h.below hr (by rw [Store.below, hget]; rfl) (List.mem_singleton.mpr rfl)
            simp only [h.get o ho]
          all_goals rfl
        all_goals rfl

/-! ## Simplifications at a node -/

variable {place : Cursor}

theorem flattenBlock (h : Agrees w u P) (hplace : ∀ r, place.element = some r → P r) :
    (flattenBlock place u).isSome = (flattenBlock place w).isSome := by
  rw [Statements.flattenBlock, Statements.flattenBlock, h.node? hplace]
  cases hnode : place.node? w.store with
  | none => rfl
  | some r =>
    have hr : P r := hplace r (Option.filter_eq_some_iff.mp hnode).1
    simp only [Option.bind_eq_bind, Option.bind_some, h.get r hr]
    split
    · rename_i block hget
      have hblock : P block :=
        h.below hr (by rw [Store.below, hget]; rfl) (List.mem_singleton.mpr rfl)
      have hitems : u.store.itemsOf (u.store.child block "statements") =
          w.store.itemsOf (w.store.child block "statements") := by
        rw [h.child hblock]
        exact h.itemsOf fun c hc => h.child_mem hblock hc
      rw [hitems]
      split <;> rfl
    · rfl

theorem lowerIf (h : Agrees w u P) (hplace : ∀ r, place.element = some r → P r) :
    (lowerIf place u).isSome = (lowerIf place w).isSome := by
  rw [Statements.lowerIf, Statements.lowerIf, h.node? hplace]
  cases hnode : place.node? w.store with
  | none => rfl
  | some r =>
    have hr : P r := hplace r (Option.filter_eq_some_iff.mp hnode).1
    simp only [Option.bind_eq_bind, Option.bind_some, h.get r hr]
    split
    · rename_i test c a hget
      have hbelow : w.store.below r = [test, some c, some a] := by rw [Store.below, hget]; rfl
      rw [h.get c (h.below hr hbelow (by simp)), h.get a (h.below hr hbelow (by simp))]
      split
      · split <;> rfl
      · rfl
      · rfl
      · rfl
    · rfl

theorem foldUnary (h : Agrees w u P) {operator : Text} {operand : Option Ref}
    (hoperand : ∀ r, operand = some r → P r) :
    (foldUnary place u operator operand).isSome = (foldUnary place w operator operand).isSome := by
  rw [Folding.foldUnary, Folding.foldUnary, h.valueOf? hoperand]
  cases w.valueOf? operand with
  | none => rfl
  | some v => cases hv : evalUnary? operator v <;> simp [hv]

theorem foldBinary (h : Agrees w u P) {operator : Text} {left right : Option Ref}
    (hleft : ∀ r, left = some r → P r) (hright : ∀ r, right = some r → P r) :
    (foldBinary place u operator left right).isSome =
      (foldBinary place w operator left right).isSome := by
  rw [Folding.foldBinary, Folding.foldBinary, h.valueOf? hleft, h.valueOf? hright]
  cases w.valueOf? left with
  | none => rfl
  | some a =>
    cases w.valueOf? right with
    | none => rfl
    | some b => cases hv : evalBinary? operator a b <;> simp [hv]

theorem foldOperation (h : Agrees w u P) (hplace : ∀ r, place.element = some r → P r) :
    (foldOperation place u).isSome = (foldOperation place w).isSome := by
  rw [Folding.foldOperation, Folding.foldOperation, h.node? hplace]
  cases hnode : place.node? w.store with
  | none => rfl
  | some r =>
    have hr : P r := hplace r (Option.filter_eq_some_iff.mp hnode).1
    simp only [Option.bind_eq_bind, Option.bind_some, h.get r hr, h.isConstant hr]
    split
    · rfl
    · split
      · rename_i operator left right hget
        have hbelow : w.store.below r = [left, right] := by rw [Store.below, hget]; rfl
        refine h.foldBinary ?_ ?_
        · rintro c rfl
          exact h.below hr hbelow (by simp)
        · rintro c rfl
          exact h.below hr hbelow (by simp)
      · rename_i operator operand hget
        refine h.foldUnary ?_
        rintro c rfl
        exact h.below hr (by rw [Store.below, hget]; rfl) (List.mem_singleton.mpr rfl)
      · rfl

theorem foldConditional (h : Agrees w u P) (hplace : ∀ r, place.element = some r → P r) :
    (foldConditional place u).isSome = (foldConditional place w).isSome := by
  rw [Folding.foldConditional, Folding.foldConditional, h.node? hplace]
  cases hnode : place.node? w.store with
  | none => rfl
  | some r =>
    have hr : P r := hplace r (Option.filter_eq_some_iff.mp hnode).1
    simp only [Option.bind_eq_bind, Option.bind_some, h.get r hr, h.isConstant hr]
    split
    · rename_i test c a hget
      have hvalue : u.valueOf? test = w.valueOf? test := by
        refine h.valueOf? ?_
        rintro x rfl
        exact h.below hr (by rw [Store.below, hget]; rfl) (List.mem_cons_self)
      rw [hvalue]
      cases w.valueOf? test <;> rfl
    · rename_i operator operand hget
      split
      · rfl
      · refine h.foldUnary ?_
        rintro c rfl
        exact h.below hr (by rw [Store.below, hget]; rfl) (List.mem_singleton.mpr rfl)
    · rfl

/-! ## Simplifications of a list -/

theorem listField? (h : Agrees w u P) (hplace : ∀ r, place.element = some r → P r)
    (habove : ∀ p o, place.parent? = some p → p.element = some o →
      u.store.label? o = w.store.label? o) :
    listField? u.store place = listField? w.store place := by
  have hlist : ∀ (s : Store) r, s.isList r = (s.label? r).isNone := by
    intro s r
    rw [Store.isList, Store.label?]
    cases s.get r <;> rfl
  rw [Sequences.listField?, Sequences.listField?, h.list? hplace]
  cases hl : place.list? w.store with
  | none => rfl
  | some l =>
    have hitems : u.store.items? l = w.store.items? l := by
      have hl' : P l := hplace l (Option.filter_eq_some_iff.mp hl).1
      simp only [Store.items?, h.get l hl']
    -- of the owner above only the label is read, and that is known to be the same
    cases hp : place.parent? with
    | none => rfl
    | some parent =>
      cases ho : parent.element with
      | none => simp [Cursor.node?, ho]
      | some o =>
        have hlabel := habove parent o hp ho
        have hnode : parent.node? u.store = parent.node? w.store := by
          simp [Cursor.node?, ho, Option.filter, hlist, hlabel]
        have howner : ∀ x, parent.node? w.store = some x → x = o := fun x hx =>
          Option.some.inj ((Option.filter_eq_some_iff.mp hx).1.symm.trans ho)
        cases hx : parent.node? w.store with
        | none => simp [hnode, hx]
        | some x =>
          obtain rfl := howner x hx
          simp [hnode, hx, Store.kind?, hlabel, hitems]

/-- What a place holds is in the part. -/
theorem item (h : Agrees w u P) (hplace : ∀ r, place.element = some r → P r)
    {items : List (Option Ref)} (hitems : Sequences.listField? w.store place = some items) :
    ∀ c, some c ∈ items → P c := by
  intro c hc
  obtain ⟨l, hl, h'⟩ := Option.bind_eq_some_iff.mp hitems
  obtain ⟨_, _, h'⟩ := Option.bind_eq_some_iff.mp h'
  obtain ⟨_, _, h'⟩ := Option.bind_eq_some_iff.mp h'
  obtain ⟨_, _, h'⟩ := Option.bind_eq_some_iff.mp h'
  split at h'
  · have hl' : P l := hplace l (Option.filter_eq_some_iff.mp hl).1
    rw [Store.items?] at h'
    cases hget : w.store.get l with
    | node label kids => simp [hget] at h'
    | list items' =>
      obtain rfl : items' = items := by simpa [hget] using h'
      exact h.below hl' (by rw [Store.below, hget]; rfl) hc
  · simp at h'

theorem statementExpression? (h : Agrees w u P) {item : Option Ref}
    (hitem : ∀ r, item = some r → P r) :
    statementExpression? u.store item = statementExpression? w.store item := by
  cases item with
  | none => rfl
  | some r => simp only [Sequences.statementExpression?, Option.map_some, h.get r (hitem r rfl)]

theorem completion? (h : Agrees w u P) {item : Option Ref} (hitem : ∀ r, item = some r → P r) :
    completion? u.store item = completion? w.store item := by
  cases item with
  | none => rfl
  | some r => simp only [Sequences.completion?, Option.map_some, h.get r (hitem r rfl)]

theorem isJump (h : Agrees w u P) {item : Option Ref} (hitem : ∀ r, item = some r → P r) :
    isJump u.store item = isJump w.store item := by
  cases item with
  | none => rfl
  | some r => simp only [Sequences.isJump, Option.bind_some, h.kind? (hitem r rfl)]

theorem runsFrom (h : Agrees w u P) {items : List (Option Ref)}
    (hitems : ∀ c, some c ∈ items → P c) (position : Nat) :
    runsFrom u.store position items = runsFrom w.store position items := by
  induction items generalizing position with
  | nil => rfl
  | cons item rest ih =>
    rw [Sequences.runsFrom, Sequences.runsFrom,
      ih (fun c hc => hitems c (List.mem_cons_of_mem _ hc)),
      h.statementExpression? fun r hr => hitems r (hr ▸ List.mem_cons_self)]

theorem pairFrom? (h : Agrees w u P) {items : List (Option Ref)}
    (hitems : ∀ c, some c ∈ items → P c) (position : Nat) :
    pairFrom? u.store position items = pairFrom? w.store position items := by
  induction items generalizing position with
  | nil => rfl
  | cons item rest ih =>
    cases rest with
    | nil => rfl
    | cons next rest =>
      rw [Sequences.pairFrom?, Sequences.pairFrom?,
        ih (fun c hc => hitems c (List.mem_cons_of_mem _ hc)),
        h.statementExpression? fun r hr => hitems r (hr ▸ List.mem_cons_self),
        h.completion? fun r hr => hitems r (hr ▸ List.mem_cons_of_mem _ List.mem_cons_self)]

theorem findJump (h : Agrees w u P) {items : List (Option Ref)}
    (hitems : ∀ c, some c ∈ items → P c) :
    items.findIdx? (Sequences.isJump u.store) = items.findIdx? (Sequences.isJump w.store) := by
  induction items with
  | nil => rfl
  | cons item rest ih =>
    rw [List.findIdx?_cons, List.findIdx?_cons,
      ih (fun c hc => hitems c (List.mem_cons_of_mem _ hc)),
      h.isJump fun r hr => hitems r (hr ▸ List.mem_cons_self)]

/-! ## The catalog -/

/-- What is fused is a pair; that a new node is made of it does not matter. -/
theorem isSome_fuseCompletion (place : Cursor) (w : Workspace) :
    (fuseCompletion place w).isSome =
      ((Sequences.listField? w.store place).bind (Sequences.pairFrom? w.store 0)).isSome := by
  unfold fuseCompletion
  cases Sequences.listField? w.store place with
  | none => rfl
  | some items =>
    simp only [Option.bind_eq_bind, Option.bind_some]
    cases Sequences.pairFrom? w.store 0 items with
    | none => rfl
    | some pair => rfl

/-- Where two workspaces agree, a simplification proposes something in both or in none. -/
theorem propose (h : Agrees w u P) (hplace : ∀ r, place.element = some r → P r)
    (habove : ∀ p o, place.parent? = some p → p.element = some o →
      u.store.label? o = w.store.label? o) (simplification : Simplification) :
    (simplification.propose place u).isSome = (simplification.propose place w).isSome := by
  -- rules of lists read the items and where the list stands; rules of nodes read what is below
  have hfield := h.listField? hplace habove
  cases simplification with
  | deblock => exact h.flattenBlock hplace
  | ifToConditional => exact h.lowerIf hplace
  | foldConstant => exact h.foldOperation hplace
  | foldConditional => exact h.foldConditional hplace
  | dropDead =>
    show (dropUnreachable place u).isSome = (dropUnreachable place w).isSome
    rw [dropUnreachable, dropUnreachable, hfield]
    cases hitems : Sequences.listField? w.store place with
    | none => rfl
    | some items =>
      simp only [Option.bind_eq_bind, Option.bind_some, h.findJump (h.item hplace hitems)]
      cases items.findIdx? (Sequences.isJump w.store) with
      | none => rfl
      | some jump =>
        simp only [Option.bind_some]
        split
        · rfl
        · simp only [Option.isSome_some]
  | sequenceFusion =>
    show (fuseRuns place u).isSome = (fuseRuns place w).isSome
    rw [fuseRuns, fuseRuns, hfield]
    cases hitems : Sequences.listField? w.store place with
    | none => rfl
    | some items =>
      simp only [Option.bind_eq_bind, Option.bind_some, h.runsFrom (h.item hplace hitems)]
      split
      · rfl
      · simp only [Option.isSome_some]
  | completionFusion =>
    show (fuseCompletion place u).isSome = (fuseCompletion place w).isSome
    rw [isSome_fuseCompletion, isSome_fuseCompletion, hfield]
    cases hitems : Sequences.listField? w.store place with
    | none => rfl
    | some items => simp only [Option.bind_some, h.pairFrom? (h.item hplace hitems)]

end Agrees

end ScriptSimplifier
