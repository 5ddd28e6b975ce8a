import Mathlib.Data.List.SplitBy
import ScriptSimplifier.Proofs.Rule.Settled
import ScriptSimplifier.Proofs.Store.Evaluation

/-!
# What fusing runs gives

Fusing cuts a list into its maximal runs of expression statements.  A run of two or more becomes one
new statement, and every other item stays (`Fused`).  The new statement carries a comma expression
that nests to the left (`Chained`): it starts with the expression of the first statement of the run,
to which the leaves of the others are appended one by one.
-/

namespace ScriptSimplifier

namespace Sequences

open Workspace

variable {s t : Store} {w w' : Workspace} {first e l : Option Ref} {ls ms : List (Option Ref)}

/-! ## Leaves -/

/-- A place that holds no comma expression. -/
def IsLeaf (s : Store) (e : Option Ref) : Prop :=
  ∀ r left right, e = some r → s.get r ≠ .node (.binaryExpression comma) [left, right]

/-- What holds of everything that is no comma expression, and of a comma expression if it holds of
both operands, holds of every place. -/
theorem comma_induction (hs : s.Acyclic) {motive : Option Ref → Prop}
    (leaf : ∀ e, IsLeaf s e → motive e)
    (comma : ∀ r left right, s.get r = .node (.binaryExpression comma) [left, right] →
      motive left → motive right → motive (some r)) (e : Option Ref) : motive e := by
  have hnone : motive none := leaf none fun _ _ _ h => by cases h
  cases e with
  | none => exact hnone
  | some r =>
    induction r using hs.induction with
    | step r ih =>
      by_cases hleaf : IsLeaf s (some r)
      · exact leaf _ hleaf
      · obtain ⟨left, right, hr⟩ : ∃ left right,
            s.get r = .node (.binaryExpression Sequences.comma) [left, right] := by
          simpa [IsLeaf] using hleaf
        have hkid : ∀ e ∈ [left, right], motive e := by
          rintro (_ | c) hc
          · exact hnone
          · exact ih c (by rwa [Store.Holds, Store.below, hr])
        exact comma r left right hr (hkid left (by simp)) (hkid right (by simp))

/-- The leaves of an expression, from left to right: a comma expression has those of its operands,
and anything else is its own leaf. -/
inductive Leaves (s : Store) : Option Ref → List (Option Ref) → Prop
  | leaf {e : Option Ref} : IsLeaf s e → Leaves s e [e]
  | comma {r : Ref} {left right : Option Ref} {ls rs : List (Option Ref)} :
      s.get r = .node (.binaryExpression comma) [left, right] → Leaves s left ls →
      Leaves s right rs → Leaves s (some r) (ls ++ rs)

/-- In a store without cycles the leaves are found down to the last one. -/
theorem leaves_leavesOf (hs : s.Acyclic) (e : Option Ref) : Leaves s e (leavesOf s e) := by
  induction e using comma_induction hs with
  | leaf e hleaf =>
    rw [leavesOf_leaf hleaf]
    exact .leaf hleaf
  | comma r left right hr ihl ihr =>
    rw [leavesOf_comma hs hr]
    exact .comma hr ihl ihr

/-- An expression has one sequence of leaves. -/
theorem Leaves.unique (h : Leaves s e ls) (h' : Leaves s e ms) : ls = ms := by
  induction h generalizing ms with
  | leaf hleaf =>
    cases h' with
    | leaf _ => rfl
    | comma hr _ _ => exact absurd hr (hleaf _ _ _ rfl)
  | comma hr _ _ ihl ihr =>
    cases h' with
    | leaf hleaf => exact absurd hr (hleaf _ _ _ rfl)
    | comma hr' hl' hr'' =>
      obtain ⟨rfl, rfl⟩ : _ = _ ∧ _ = _ := by simpa [hr] using hr'
      rw [ihl hl', ihr hr'']

theorem Leaves.isLeaf (h : Leaves s e ls) : ∀ l ∈ ls, IsLeaf s l := by
  induction h with
  | leaf hleaf => simpa using hleaf
  | comma _ _ _ ihl ihr => exact List.forall_mem_append.mpr ⟨ihl, ihr⟩

theorem knownAt_leaf (hs : s.Acyclic) (hc : s.Closed) (he : s.KnownAt e) :
    ∀ l ∈ leavesOf s e, s.KnownAt l := by
  induction e using comma_induction hs with
  | leaf e hleaf => simpa [leavesOf_leaf hleaf] using he
  | comma r left right hr ihl ihr =>
    have hkid : ∀ e ∈ [left, right], s.KnownAt e := fun e hmem =>
      hc.knownAt (r := r) (by rwa [Store.below, hr])
    rw [leavesOf_comma hs hr]
    exact List.forall_mem_append.mpr ⟨ihl (hkid left (by simp)), ihr (hkid right (by simp))⟩

theorem IsLeaf.extends (h : s.Extends t) (he : s.KnownAt e) (hleaf : IsLeaf s e) : IsLeaf t e := by
  rintro r left right rfl
  rw [h.get r (he r rfl)]
  exact hleaf r left right rfl

/-- Known expressions keep their leaves when the store grows. -/
theorem leavesOf_extends (h : s.Extends t) (hs : s.Acyclic) (hc : s.Closed) (ht : t.Acyclic)
    (he : s.KnownAt e) : leavesOf t e = leavesOf s e := by
  induction e using comma_induction hs with
  | leaf e hleaf => rw [leavesOf_leaf hleaf, leavesOf_leaf (hleaf.extends h he)]
  | comma r left right hr ihl ihr =>
    have hkid : ∀ e ∈ [left, right], s.KnownAt e := fun e hmem =>
      hc.knownAt (r := r) (by rwa [Store.below, hr])
    rw [leavesOf_comma hs hr, leavesOf_comma ht ((h.get r (he r rfl)).trans hr),
      ihl (hkid left (by simp)), ihr (hkid right (by simp))]

/-- The leaves of expressions do not depend on what lists hold. -/
theorem Leaves.refill {l : Ref} {items : List (Option Ref)} (hl : s.get l = .list items)
    (items' : List (Option Ref)) (h : Leaves s e ls) : Leaves (s.refill l items') e ls := by
  induction h with
  | @leaf e hleaf =>
    refine .leaf fun r left right hr => ?_
    by_cases hne : r = l
    · subst hne
      simp [Edit.get_refill_list hl]
    · rw [Store.get_refill_ne _ hne]
      exact hleaf r left right hr
  | @comma r left right ls rs hr _ _ ihl ihr =>
    have hne : r ≠ l := by
      rintro rfl
      simp [hl] at hr
    exact .comma (by rw [Store.get_refill_ne _ hne, hr]) ihl ihr

/-! ## Comma expressions that nest to the left -/

/-- A comma expression that nests to the left: others are appended to a first expression one by
one. -/
inductive Chained (s : Store) (first : Option Ref) : List (Option Ref) → Option Ref → Prop
  | start : Chained s first [] first
  | append {ls : List (Option Ref)} {e l : Option Ref} {r : Ref} : Chained s first ls e →
      s.get r = .node (.binaryExpression comma) [e, l] → Chained s first (ls ++ [l]) (some r)

theorem Chained.mono (h : Chained s first ls e)
    (hget : ∀ r kids, s.get r = .node (.binaryExpression comma) kids →
      t.get r = .node (.binaryExpression comma) kids) : Chained t first ls e := by
  induction h with
  | start => exact .start
  | append _ hr ih => exact ih.append (hget _ _ hr)

theorem Chained.extends (h : Chained s first ls e) (hst : s.Extends t) : Chained t first ls e := by
  refine h.mono fun r kids hr => ?_
  have hknown : s.Known r := by
    by_contra hunknown
    simp [Store.get_unknown hunknown] at hr
  rw [hst.get r hknown, hr]

theorem Chained.trans {e' : Option Ref} (h : Chained s first ls e) (h' : Chained s e ms e') :
    Chained s first (ls ++ ms) e' := by
  induction h' with
  | start => rwa [List.append_nil]
  | append _ hr ih =>
    rw [← List.append_assoc]
    exact ih.append hr

/-- The leaves of the whole are those of the first expression and the appended ones. -/
theorem Chained.leaves {fs : List (Option Ref)} (h : Chained s first ls e)
    (hfirst : Leaves s first fs) (hls : ∀ l ∈ ls, IsLeaf s l) : Leaves s e (fs ++ ls) := by
  induction h with
  | start => rwa [List.append_nil]
  | append _ hr ih =>
    obtain ⟨hls, hl⟩ := List.forall_mem_append.mp hls
    rw [← List.append_assoc]
    exact .comma hr (ih hls) (.leaf (hl _ List.mem_cons_self))

/-- An expression to which others were appended one by one, in a store that only grew. -/
structure Appends (w : Workspace) (first : Option Ref) (ls : List (Option Ref))
    (joined : Option Ref × Workspace) : Prop where
  grows : w.store.Extends joined.2.store
  acyclic : joined.2.store.Acyclic
  closed : joined.2.store.Closed
  known : joined.2.store.KnownAt joined.1
  chained : Chained joined.2.store first ls joined.1

theorem Appends.refl (hs : w.store.Acyclic) (hc : w.store.Closed) (hfirst : w.store.KnownAt first) :
    Appends w first [] (first, w) :=
  ⟨.refl _, hs, hc, hfirst, .start⟩

theorem Appends.trans {joined joined' : Option Ref × Workspace} (h : Appends w first ls joined)
    (h' : Appends joined.2 joined.1 ms joined') : Appends w first (ls ++ ms) joined' :=
  ⟨h.grows.trans h'.grows, h'.acyclic, h'.closed, h'.known,
    (h.chained.extends h'.grows).trans h'.chained⟩

theorem appends_append (hs : w.store.Acyclic) (hc : w.store.Closed)
    (hfirst : w.store.KnownAt first) (hls : ∀ l ∈ ls, w.store.KnownAt l) :
    Appends w first ls (ls.foldl append (first, w)) := by
  induction ls generalizing w first with
  | nil => exact .refl hs hc hfirst
  | cons l ls ih =>
    obtain ⟨hl, hls⟩ := List.forall_mem_cons.mp hls
    have hbelow : ∀ k, some k ∈ (Cell.node (.binaryExpression comma) [first, l]).below →
        w.store.Known k := by
      intro k hk
      rcases (by simpa [Cell.below] using hk : some k = first ∨ some k = l) with rfl | rfl
      · exact hfirst k rfl
      · exact hl k rfl
    have hone : Appends w first [l] (append (first, w) l) :=
      ⟨w.store.extends_push _, hs.push hc hbelow, hc.push hbelow,
        Store.knownAt_some.mpr (w.store.next_known _),
        Chained.start.append (w.store.get_push_next _)⟩
    exact hone.trans (ih hone.acyclic hone.closed hone.known fun l hl =>
      hone.grows.knownAt (hls l hl))

theorem appends_joinAll (hs : w.store.Acyclic) (hc : w.store.Closed)
    (hfirst : w.store.KnownAt first) {others : List (Option Ref)}
    (hothers : ∀ e ∈ others, w.store.KnownAt e) :
    Appends w first (others.flatMap (leavesOf w.store)) (joinAll w first others) := by
  induction others generalizing w first with
  | nil => exact .refl hs hc hfirst
  | cons e rest ih =>
    obtain ⟨he, hrest⟩ := List.forall_mem_cons.mp hothers
    have hjoin : Appends w first (leavesOf w.store e) (join w first e) :=
      appends_append hs hc hfirst (knownAt_leaf hs hc he)
    have hall := ih hjoin.acyclic hjoin.closed hjoin.known fun e he =>
      hjoin.grows.knownAt (hrest e he)
    have hsame : rest.flatMap (leavesOf (join w first e).2.store) =
        rest.flatMap (leavesOf w.store) :=
      List.flatMap_congr fun e he => leavesOf_extends hjoin.grows hs hc hjoin.acyclic (hrest e he)
    rw [hsame] at hall
    exact hjoin.trans hall

/-! ## Runs that are fused -/

/-- What a run of a list in one store becomes in another one: an item that stands alone stays, and
two or more expression statements become a new one.  It carries the expression of the first one
with the leaves of the others appended. -/
inductive Fused (s t : Store) : List (Option Ref) → Option Ref → Prop
  | kept (item : Option Ref) : Fused s t [item] item
  | joined {chunk others leaves : List (Option Ref)} {first e : Option Ref} {r : Ref}
      {appended : List (List (Option Ref))} : others ≠ [] →
      chunk.map (statementExpression? s) = (first :: others).map some →
      Leaves s first leaves → List.Forall₂ (Leaves s) others appended → ¬ s.Known r →
      t.get r = .node .expressionStatement [e] → Chained t first appended.flatten e →
      Leaves t e (leaves ++ appended.flatten) → Fused s t chunk (some r)

theorem Fused.singleton {item item' : Option Ref} (h : Fused s t [item] item') : item' = item := by
  cases h with
  | kept => rfl
  | joined hothers hmap _ _ _ _ _ _ =>
    exact absurd (by simpa using congrArg List.length hmap) hothers

/-- The new statement does not depend on what lists hold. -/
theorem Fused.refill {l : Ref} {items : List (Option Ref)} (hl : t.get l = .list items)
    (items' : List (Option Ref)) {chunk : List (Option Ref)} {item : Option Ref}
    (h : Fused s t chunk item) : Fused s (t.refill l items') chunk item := by
  have hget : ∀ r label kids, t.get r = .node label kids →
      (t.refill l items').get r = .node label kids := by
    intro r label kids hr
    rw [Store.get_refill_ne, hr]
    rintro rfl
    rw [hl] at hr
    cases hr
  cases h with
  | kept item => exact .kept item
  | joined hothers hmap hfirst happended hnew hr hchained hleaves =>
    exact .joined hothers hmap hfirst happended hnew (hget _ _ _ hr)
      (hchained.mono fun r kids => hget r _ kids) (hleaves.refill hl items')

/-- A new statement with an expression to which others were appended, in a store that only grew. -/
structure Carries (w : Workspace) (first : Option Ref) (ls : List (Option Ref))
    (added : Ref × Workspace) : Prop where
  grows : w.store.Extends added.2.store
  acyclic : added.2.store.Acyclic
  closed : added.2.store.Closed
  fresh : ¬ w.store.Known added.1
  known : added.2.store.Known added.1
  chained : ∃ e, added.2.store.get added.1 = .node .expressionStatement [e] ∧
    Chained added.2.store first ls e

theorem Appends.carries {joined : Option Ref × Workspace} (h : Appends w first ls joined) :
    Carries w first ls (joined.2.add .expressionStatement [joined.1]) := by
  have hbelow : ∀ k, some k ∈ (Cell.node .expressionStatement [joined.1]).below →
      joined.2.store.Known k := fun k hk => h.known k (by simpa [Cell.below, eq_comm] using hk)
  have hpush := joined.2.store.extends_push (.node .expressionStatement [joined.1])
  rw [add_own joined.2 [joined.1] ⟨by simp, by simp⟩]
  exact ⟨h.grows.trans hpush, h.acyclic.push h.closed hbelow, h.closed.push hbelow,
    fun hknown => joined.2.store.next_unknown (h.grows.known hknown),
    Store.next_known _ _, _, Store.get_push_next _ _, h.chained.extends hpush⟩

/-- The new statement is what a run becomes, also when the store has grown before and after. -/
theorem Carries.fused (hs : s.Acyclic) (hc : s.Closed) (hsw : s.Extends w.store)
    (hw : w.store.Acyclic) {chunk others : List (Option Ref)} (hne : others ≠ [])
    (hmap : chunk.map (statementExpression? s) = (first :: others).map some)
    (hknown : ∀ e ∈ first :: others, s.KnownAt e) {added : Ref × Workspace}
    (h : Carries w first (others.flatMap (leavesOf w.store)) added)
    (hgrows : added.2.store.Extends t) (ht : t.Acyclic) : Fused s t chunk (some added.1) := by
  obtain ⟨e, hget, hchained⟩ := h.chained
  obtain ⟨hfirst, hothers⟩ := List.forall_mem_cons.mp hknown
  have hst : s.Extends t := (hsw.trans h.grows).trans hgrows
  have hsame : others.flatMap (leavesOf w.store) = others.flatMap (leavesOf s) :=
    List.flatMap_congr fun e he => leavesOf_extends hsw hs hc hw (hothers e he)
  rw [hsame, List.flatMap_def] at hchained
  have happended : List.Forall₂ (Leaves s) others (others.map (leavesOf s)) :=
    List.forall₂_map_right_iff.mpr (List.forall₂_same.mpr fun e _ => leaves_leavesOf hs e)
  have hleaf : ∀ l ∈ (others.map (leavesOf s)).flatten, IsLeaf t l := by
    intro l hl
    obtain ⟨ls, hls, hl⟩ := List.mem_flatten.mp hl
    obtain ⟨e, he, rfl⟩ := List.mem_map.mp hls
    exact ((leaves_leavesOf hs e).isLeaf l hl).extends hst (knownAt_leaf hs hc (hothers e he) l hl)
  have hchained := hchained.extends hgrows
  refine .joined hne hmap (leaves_leavesOf hs first) happended (fun hr => h.fresh (hsw.known hr))
    ((hgrows.get _ h.known).trans hget) hchained (hchained.leaves ?_ hleaf)
  rw [← leavesOf_extends hst hs hc ht hfirst]
  exact leaves_leavesOf ht first

/-- The expressions of known statements are known. -/
theorem knownAt_of_run (hc : s.Closed) {chunk es : List (Option Ref)}
    (hmap : chunk.map (statementExpression? s) = es.map some) : ∀ e ∈ es, s.KnownAt e := by
  intro e he
  have hmem : some e ∈ chunk.map (statementExpression? s) := hmap ▸ List.mem_map_of_mem he
  obtain ⟨item, -, hitem⟩ := List.mem_map.mp hmem
  obtain ⟨r, -, hr⟩ := statementExpression?_eq hitem
  exact hc.knownAt (r := r) (by simp [Store.below, hr, Cell.below])

variable {position : Nat} {items items' : List (Option Ref)} {puts : List (Nat × Ref)}
  {gone : List Nat}

/-- Each maximal run becomes what it should. -/
theorem Fuses.fused (h : Fuses s position w items puts gone items' w') (hs : s.Acyclic)
    (hc : s.Closed) (hsw : s.Extends w.store) (hw : w.store.Acyclic) (hcw : w.store.Closed) :
    w.store.Extends w'.store ∧ w'.store.Acyclic ∧
      List.Forall₂ (Fused s w'.store) (items.splitBy (together s)) items' := by
  induction h with
  | nil position w => exact ⟨.refl _, hw, .nil⟩
  | @keep position w w' item rest rest' puts gone hapart _ ih =>
    obtain ⟨hgrows, hw', hrest⟩ := ih hsw hw hcw
    have hsplit : (item :: rest).splitBy (together s) = [item] :: rest.splitBy (together s) :=
      List.splitBy_append (l := [item]) (by simpa using hapart)
    rw [hsplit]
    exact ⟨hgrows, hw', .cons (.kept item) hrest⟩
  | @fuse position w w' chunk others rest rest' first puts gone hne hmap hapart _ ih =>
    have hknown := knownAt_of_run hc hmap
    obtain ⟨hfirst, hothers⟩ := List.forall_mem_cons.mp hknown
    have hcarries : Carries w first _ (fusedStatement w first others) :=
      (appends_joinAll hw hcw (hsw.knownAt hfirst) fun e he => hsw.knownAt (hothers e he)).carries
    obtain ⟨hgrows, hw', hrest⟩ := ih (hsw.trans hcarries.grows) hcarries.acyclic hcarries.closed
    -- a run is one chunk of the split: its items belong together, and the next one does not
    have hrun : ∀ a ∈ chunk, ∀ b ∈ chunk, together s a b = true := fun a ha b hb => by
      simp [together, isSome_of_mem_run hmap ha, isSome_of_mem_run hmap hb]
    have hchunk : chunk ≠ [] := by
      rintro rfl
      simp at hmap
    have hsplit : (chunk ++ rest).splitBy (together s) = chunk :: rest.splitBy (together s) := by
      rw [List.splitBy_append, List.splitBy_of_isChain hchunk]
      · rfl
      · exact (List.pairwise_of_forall_mem_list hrun).isChain
      · intro a _ b hb
        simp [together, hapart b hb]
    rw [hsplit]
    exact ⟨hcarries.grows.trans hgrows, hw',
      .cons (hcarries.fused hs hc hsw hw hne hmap hknown hgrows hw') hrest⟩

theorem statementExpression?_extends (h : s.Extends t) {item : Option Ref}
    (hitem : s.KnownAt item) : statementExpression? t item = statementExpression? s item := by
  cases item with
  | none => rfl
  | some r => simp [statementExpression?, h.get r (hitem r rfl)]

theorem statementExpression?_refill {l : Ref} (hl : s.get l = .list items)
    (items' : List (Option Ref)) (item : Option Ref) :
    statementExpression? (s.refill l items') item = statementExpression? s item := by
  cases item with
  | none => rfl
  | some r =>
    by_cases hr : r = l
    · subst hr
      simp [statementExpression?, hl, Edit.get_refill_list hl]
    · simp [statementExpression?, Store.get_refill_ne _ hr]

/-- A run has become an expression statement if it was made of expression statements. -/
theorem Fused.isSome {chunk : List (Option Ref)} {item : Option Ref} (h : Fused s t chunk item)
    (hsame : ∀ e ∈ chunk, statementExpression? t e = statementExpression? s e) :
    ∀ e ∈ chunk, (statementExpression? t item).isSome = (statementExpression? s e).isSome := by
  intro e he
  cases h with
  | kept item =>
    obtain rfl := List.mem_singleton.mp he
    rw [hsame e he]
  | joined _ hmap _ _ _ hr _ _ =>
    rw [isSome_of_mem_run hmap he]
    simp [statementExpression?, hr]

/-- What becomes of maximal runs has no two neighbours that are expression statements. -/
theorem apart_of_fused {chunks : List (List (Option Ref))}
    (h : List.Forall₂ (Fused s t) chunks items')
    (hsame : ∀ chunk ∈ chunks, ∀ e ∈ chunk, statementExpression? t e = statementExpression? s e)
    (hchunks : chunks.IsChain fun a b => ∃ ha hb, together s (a.getLast ha) (b.head hb) = false) :
    items'.IsChain fun a b => together t a b = false := by
  induction h with
  | nil => exact .nil
  | @cons chunk item chunks items' hfirst hrest ih =>
    obtain ⟨hsfirst, hsrest⟩ := List.forall_mem_cons.mp hsame
    cases hrest with
    | nil => exact .singleton _
    | cons hsecond hrest =>
      obtain ⟨⟨ha, hb, hapart⟩, hchunks⟩ := List.isChain_cons_cons.mp hchunks
      refine List.isChain_cons_cons.mpr ⟨?_, ih hsrest hchunks⟩
      rw [together, hfirst.isSome hsfirst _ (List.getLast_mem ha),
        hsecond.isSome (hsrest _ List.mem_cons_self) _ (List.head_mem hb)]
      exact hapart

/-! ## The place of a list -/

variable {place parent : Cursor} {name : String} {owner l : Ref} {kind : Kind} {edit : Edit}

theorem isList_of_kind? (hkind : s.kind? owner = some kind) : s.isList owner = false := by
  cases hget : s.get owner with
  | node label kids => simp [Store.isList, hget]
  | list items => simp [Store.kind?, Store.label?, hget] at hkind

theorem known_of_list (hitems : s.get l = .list items) : s.Known l := by
  by_contra hunknown
  rw [Store.get_unknown hunknown] at hitems
  cases hitems

theorem known_of_listField (hkind : s.kind? owner = some kind)
    (hfield : kind.isListField name = true) : s.Known owner := by
  by_contra hunknown
  obtain rfl : Label.emptyStatement.kind = kind := by
    simpa [Store.kind?, Store.label?, Store.get_unknown hunknown] using hkind
  cases hfield

theorem listField?_list (hplace : place = .step parent (.field name) (some l))
    (howner : parent.element = some owner) (hkind : s.kind? owner = some kind)
    (hfield : kind.isListField name = true) (hitems : s.get l = .list items) :
    listField? s place = some items := by
  subst hplace
  have hlist : (Cursor.step parent (.field name) (some l)).list? s = some l := by
    simp [Cursor.list?, Cursor.element, Store.isList, hitems]
  have hnode : parent.node? s = some owner := by
    simp [Cursor.node?, howner, isList_of_kind? hkind]
  simp [listField?, hlist, Cursor.parent?, hnode, hkind, Cursor.fieldName, Cursor.key?, hfield,
    Store.items?, hitems]

/-- The items of a list may be edited if the owner of the list is no fragment. -/
theorem editable_list (hplace : place = .step parent (.field name) (some l))
    (howner : parent.element = some owner) (hnode : s.isList owner = false)
    (hlist : s.isList l = true) {pool : Pool} (hfree : pool.isConstant (some owner) = false) :
    Edit.Editable pool s place l := by
  subst hplace
  have howner? : ((Cursor.step parent (.field name) (some l)).owner? s).bind (·.node? s) =
      some owner := by
    simp [Cursor.owner?, Cursor.parent?, Edit.nodePlace?_node howner hnode, Cursor.node?, howner,
      hnode]
  refine Edit.editable_list ?_ (by rw [howner?, hfree])
  simp [Cursor.list?, Cursor.element, hlist]

/-- Fusing is exact.  Let a place hold a list in a list field of a node, in a store without cycles
whose pool was asked for any values in any order.  Something is proposed if and only if two
neighbours in the list are expression statements.  Applying what is proposed succeeds: it replaces
every maximal run of two or more expression statements by a new one and keeps every other item, so
no two neighbours are expression statements any more.  The new statement carries a comma expression
that nests to the left.  It starts with the expression of the first statement of the run and goes on
with the leaves of the others, so its leaves are those of the run in order.  No other element
changes. -/
theorem fuses_maximal_runs (hw : w.Pooled) (hs : w.store.Acyclic) (hc : w.store.Closed)
    (hplace : place = .step parent (.field name) (some l)) (howner : parent.element = some owner)
    (hkind : w.store.kind? owner = some kind) (hfield : kind.isListField name = true)
    (hitems : w.store.get l = .list items) :
    ((fuseRuns place w).isSome = true ↔
      ∃ before a b after, items = before ++ a :: b :: after ∧ together w.store a b = true) ∧
    ∀ edit w', fuseRuns place w = some (edit, w') →
      ∃ t items', edit.apply (some w'.pool) w'.store = (t, none) ∧ t.get l = .list items' ∧
        List.Forall₂ (Fused w.store t) (items.splitBy (together w.store)) items' ∧
        (items'.IsChain fun a b => together t a b = false) ∧
        ∀ r, w.store.Known r → r ≠ l → t.get r = w.store.get r := by
  have hlistField := listField?_list hplace howner hkind hfield hitems
  refine ⟨?_, fun edit w' h => ?_⟩
  · rw [fuseRuns_isSome_iff hlistField, List.isChain_iff_forall_rel_of_append_cons_cons]
    push Not
    simp only [ne_eq, Bool.not_eq_false]
    exact ⟨fun ⟨a, b, before, after, heq, hab⟩ => ⟨before, a, b, after, heq, hab⟩,
      fun ⟨before, a, b, after, heq, hab⟩ => ⟨a, b, before, after, heq, hab⟩⟩
  · obtain ⟨l', items₁, items', puts, gone, hfuses, hrewrites⟩ := fuseRuns_step h
    obtain rfl : l = l' := by simpa [hplace, Cursor.element] using hrewrites.element
    obtain rfl : items = items₁ := Cell.list.inj (hitems.symm.trans hrewrites.list)
    obtain ⟨hgrows, hacyclic, hfused⟩ := hfuses.fused hs hc (.refl _) hs hc
    have hlist : w'.store.get l = .list items := (hgrows.get l (known_of_list hitems)).trans hitems
    have hfree : w'.pool.isConstant (some owner) = false := by
      rw [hfuses.pool]
      exact hw.valued.isConstant_listField hkind hfield
    have hnode : w'.store.isList owner = false :=
      isList_of_kind? ((hgrows.kind? (known_of_listField hkind hfield)).trans hkind)
    have heditable := editable_list hplace howner hnode (by simp [Store.isList, hlist]) hfree
    have hknown : ∀ e ∈ items, w.store.KnownAt e := fun e he =>
      hc.knownAt (r := l) (by rwa [Store.below, hitems])
    -- the statements of the list are read in the workspace before the edit and after it
    have hchunk : ∀ chunk ∈ items.splitBy (together w.store), ∀ e ∈ chunk,
        statementExpression? (w'.store.refill l items') e = statementExpression? w.store e := by
      intro chunk hchunk e he
      have hmem : e ∈ items := by
        rw [← List.flatten_splitBy (together w.store) items]
        exact List.mem_flatten_of_mem hchunk he
      rw [statementExpression?_refill hlist, statementExpression?_extends hgrows (hknown e hmem)]
    have hfused' : List.Forall₂ (Fused w.store (w'.store.refill l items'))
        (items.splitBy (together w.store)) items' :=
      hfused.imp fun _ _ => .refill hlist items'
    refine ⟨_, items', hrewrites.apply _ heditable hlist fun _ => rfl, Edit.get_refill_list hlist _,
      hfused', apart_of_fused hfused' hchunk (List.isChain_getLast_head_splitBy _ items),
      fun r hr hne => ?_⟩
    rw [Store.get_refill_ne _ hne, hgrows.get r hr]

/-- The script of the statements `a`, `b, c`, an empty one, and `d`. -/
def fourStatements : Tree :=
  .node .script [.list [.node .expressionStatement [.node (.identifierExpression "a") []],
    .node .expressionStatement [.node (.binaryExpression ",")
      [.node (.identifierExpression "b") [], .node (.identifierExpression "c") []]],
    .node .emptyStatement [], .node .expressionStatement [.node (.identifierExpression "d") []]]]

/-- The first two statements become one, and the others stay. -/
theorem fuses_maximal_runs_fourStatements :
    let w := Workspace.ofStore (Store.empty.plant fourStatements).2
    let place := Cursor.step (.root (some (.cell 9))) (.field "statements") (some (.cell 8))
    w.Pooled ∧ w.store.Acyclic ∧ w.store.Closed ∧ w.store.kind? (.cell 9) = some .script ∧
      Kind.script.isListField "statements" = true ∧ ∃ edit w' t fused e,
        fuseRuns place w = some (edit, w') ∧ edit.apply (some w'.pool) w'.store = (t, none) ∧
        t.get (.cell 8) = .list [some fused, some .emptyStatement, some (.cell 7)] ∧
        t.get fused = .node .expressionStatement [e] ∧
        Leaves t e [some (.cell 0), some (.cell 2), some (.cell 3)] := by
  intro w place
  have hwellFormed : fourStatements.allNodes (Tree.nodeWellFormed .full) = true := by decide
  have hw : w.Kept .full :=
    (kept_ofStore (Store.plants_plant hwellFormed Store.orderly_empty).orderly).1
  have hplace : place = .step (.root (some (.cell 9))) (.field "statements") (some (.cell 8)) := rfl
  have hkind : w.store.kind? (.cell 9) = some .script := rfl
  have hitems : w.store.get (.cell 8) = .list [some (.cell 1), some (.cell 5),
    some .emptyStatement, some (.cell 7)] := rfl
  obtain ⟨hproposes, hexact⟩ :=
    fuses_maximal_runs (.start _) hw.acyclic hw.closed hplace rfl hkind rfl hitems
  obtain ⟨⟨edit, w'⟩, hedit⟩ := Option.isSome_iff_exists.mp (hproposes.mpr ⟨[], _, _, _, rfl, rfl⟩)
  obtain ⟨t, items', happly, hlist, hfused, -, -⟩ := hexact edit w' hedit
  have hsplit : [some (.cell 1), some (.cell 5), some .emptyStatement, some (.cell 7)].splitBy
      (together w.store) = [[some (.cell 1), some (.cell 5)], [some .emptyStatement],
        [some (.cell 7)]] := rfl
  rw [hsplit] at hfused
  obtain _ | ⟨hfirst, _ | ⟨hsecond, _ | ⟨hthird, _ | _⟩⟩⟩ := hfused
  obtain rfl := hsecond.singleton
  obtain rfl := hthird.singleton
  cases hfirst with
  | joined _ hmap hleaves happended _ hr _ hall =>
    have hparts : [some (Ref.cell 0), some (.cell 4)].map some = List.map some (_ :: _) := hmap
    obtain ⟨rfl, rfl⟩ :=
      List.cons.inj (List.map_injective_iff.mpr (Option.some_injective (Option Ref)) hparts)
    obtain _ | ⟨hother, _ | _⟩ := happended
    obtain rfl := hleaves.unique (leaves_leavesOf hw.acyclic _)
    obtain rfl := hother.unique (leaves_leavesOf hw.acyclic _)
    exact ⟨.start _, hw.acyclic, hw.closed, hkind, rfl, edit, w', t, _, _, hedit, happly, hlist,
      hr, hall⟩

end Sequences

end ScriptSimplifier
