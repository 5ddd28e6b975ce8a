import ScriptSimplifier.Proofs.Meaning.Steps
import ScriptSimplifier.Proofs.Pass.Sessions

/-!
# The catalog keeps the meaning of scripts

An edit gives one element of the tree new children that may stand for the old ones.  As standing for
something is a congruence, the whole tree may then stand for the tree before the edit
(`refines_refill`), and so may the trees of a whole session.
-/

namespace ScriptSimplifier

open Workspace Sequences

variable {strict : Strictness} {root : Ref} {w w' : Workspace}

namespace Store

/-- The items of a list below a node are of one category. -/
theorem list_category {s : Store} (ht : s.Typed strict) (hroot : s.isList root = false) {x : Ref}
    (hreach : s.Reaches root x) {items : List (Option Ref)} (hx : s.get x = .list items) :
    ∃ category, ∀ e ∈ items, s.isIn category e = true := by
  induction hreach generalizing items with
  | refl => simp [isList, hx] at hroot
  | @tail p x _ hholds ih =>
    rw [Holds, below] at hholds
    cases hp : s.get p with
    | node label kids =>
      rw [hp] at hholds
      have htyped := ht p label kids hp
      obtain ⟨i, hi⟩ := List.mem_iff_getElem?.mp hholds
      have hi' : kids[i]? = some (some x) := hi
      have hlt : i < label.fields.length := by
        rw [← htyped.length]
        exact (List.getElem?_eq_some_iff.mp hi').1
      have hadmits := htyped.admits (label.fields[i], some x) (List.mem_iff_getElem?.mpr
        ⟨i, List.getElem?_zip_eq_some.mpr ⟨List.getElem?_eq_getElem hlt, hi'⟩⟩)
      simp only [admits, hx, Bool.and_eq_true, List.all_eq_true] at hadmits
      exact ⟨_, hadmits.2⟩
    | list others =>
      rw [hp] at hholds
      obtain ⟨category, hall⟩ := ih hp
      obtain ⟨_, label, kids, hr, hget, _⟩ := isIn_iff.mp (hall _ hholds)
      obtain rfl := Option.some.inj hr
      cases hx.symm.trans hget

end Store

namespace Semantics

variable {S : Semantics}

/-- One item of a list is replaced. -/
theorem refines_set {f g : Option Ref → Tree} {es : List (Option Ref)} {i : Nat}
    {r n : Option Ref} (hi : es[i]? = some r) (hsame : ∀ e ∈ es, S.Refines (f e) (g e))
    (hn : S.Refines (f r) (g n)) : List.Forall₂ S.Refines (es.map f) ((es.set i n).map g) := by
  have hrows : List.Forall₂ S.Refines (es.map f) (es.map g) := by
    rw [List.forall₂_map_left_iff, List.forall₂_map_right_iff]
    exact List.forall₂_same.mpr hsame
  rw [List.map_set]
  refine forall₂_set hrows fun t ht => ?_
  rw [List.getElem?_map, hi, Option.map_some, Option.some.injEq] at ht
  exact ht ▸ hn

/-- The element with new children may stand for itself with the old ones. -/
theorem refines_alters (hw : w.Intact strict root) {x : Ref} {kids : List (Option Ref)}
    (hreach : w.store.Reaches root x) (hown : w.shares x = false) (h : Alters w w' x kids)
    (hassigns : (w.store.tree (some x)).assignsTargets = true) :
    S.Refines (w.store.tree (some x)) ((w'.refill x kids).store.tree (some x)) := by
  have hsuits := h.suits hw.toKept
  have hknown := hw.known_of_reaches hw.root_known hreach
  have hown' : w'.shares x = false := by rw [hsuits.grows.shares hknown, hown]
  have hkept := hsuits.kept_refill hw.toKept hknown hown
  have hcell := hsuits.kept.cell_of_own (hsuits.grows.store.known hknown) hown'
  -- the new children lie beside the element, so their trees are those before the change
  have htrees : kids.map (w'.refill x kids).store.tree = kids.map w'.store.tree :=
    List.map_congr_left fun e he => tree_refill hsuits.kept.acyclic hkept.acyclic
      fun k hk => hsuits.not_reaches hw.toKept hknown hown (hk ▸ he)
  have hget : (w'.refill x kids).store.get x = (w.store.get x).refill kids := by
    rw [Workspace.refill, Store.get_refill_self kids hcell, hsuits.grows.store.get x hknown]
  have hsame : ∀ e ∈ w.store.below x, (w.store.tree e).assignsTargets = true →
      S.Refines (w.store.tree e) (w'.store.tree e) := by
    intro e he hassigns'
    rw [hsuits.grows.store.tree hw.acyclic hw.closed hsuits.kept.acyclic (hw.closed.knownAt he)]
    exact .refl hassigns'
  cases hx : w.store.get x with
  | node label old =>
    have hbelow : w.store.below x = old := by rw [Store.below, hx]; rfl
    rw [hx] at hget
    obtain ⟨hlabel, hold⟩ := (Store.assigns_node hw.acyclic hx).mp hassigns
    rw [hw.acyclic.tree_node hx, hkept.acyclic.tree_node hget, htrees]
    refine .node hlabel ?_
    cases h with
    | list hlist _ => cases hx.symm.trans hlist
    | node hstep hi =>
      rw [hbelow] at hi hsame ⊢
      exact refines_set hi (fun e he => hsame e he (hold e he))
        (refines_nodeStep hw.toKept hstep (by simp) (hold _ (List.mem_of_getElem? hi)))
  | list items =>
    have hbelow : w.store.below x = items := by rw [Store.below, hx]; rfl
    rw [hx] at hget
    have hitems := (Store.assigns_list hw.acyclic hx).mp hassigns
    rw [hw.acyclic.tree_list hx, hkept.acyclic.tree_list hget, htrees]
    refine .list ?_
    cases h with
    | node hstep hi =>
      rw [hbelow] at hi hsame ⊢
      exact .of_forall₂ (refines_set hi (fun e he => hsame e he (hitems e he))
        (refines_nodeStep hw.toKept hstep (by simp) (hitems _ (List.mem_of_getElem? hi))))
    | list hlist hstep =>
      obtain rfl := Cell.list.inj (hx.symm.trans hlist)
      obtain ⟨category, hcategory⟩ := Store.list_category hw.typed hw.root_node hreach hx
      exact refines_listStep hw.toKept hstep
        (fun e he => hw.closed.knownAt (hbelow.symm ▸ he)) hcategory
        (List.forall_mem_map.mpr hitems)

/-- The tree in which one element has new children may stand for the tree before. -/
theorem refines_refill (hw : w.Intact strict root) {x : Ref} {kids : List (Option Ref)}
    (hreach : w.store.Reaches root x) (hown : w.shares x = false) (h : Alters w w' x kids)
    (hassigns : (w.store.tree (some root)).assignsTargets = true) :
    S.Refines (w.store.tree (some root)) ((w'.refill x kids).store.tree (some root)) := by
  have hsuits := h.suits hw.toKept
  have hxknown := hw.known_of_reaches hw.root_known hreach
  have hkept := hsuits.kept_refill hw.toKept hxknown hown
  -- from the leaves upward: an element other than the changed one still holds what it held
  have hall : ∀ r, w.store.Known r → (w.store.tree (some r)).assignsTargets = true →
      S.Refines (w.store.tree (some r)) ((w'.refill x kids).store.tree (some r)) := by
    intro r
    induction r using hw.acyclic.induction with
    | step r ih =>
      intro hknown hassigns
      by_cases hrx : r = x
      · subst hrx
        exact refines_alters hw hreach hown h hassigns
      · have hget : (w'.refill x kids).store.get r = w.store.get r := by
          rw [Workspace.refill, Store.get_refill_ne kids hrx, hsuits.grows.store.get r hknown]
        have hbelow : ∀ es, w.store.below r = es →
            (∀ e ∈ es, (w.store.tree e).assignsTargets = true) →
            List.Forall₂ S.Refines (es.map w.store.tree)
              (es.map (w'.refill x kids).store.tree) := by
          intro es hes hassigns
          rw [List.forall₂_map_left_iff, List.forall₂_map_right_iff]
          refine List.forall₂_same.mpr fun e he => ?_
          cases e with
          | none => simpa using Refines.refl rfl
          | some c =>
            have hholds : w.store.Holds r c := by rw [Store.Holds, hes]; exact he
            exact ih c hholds (hw.closed _ _ hholds) (hassigns _ he)
        cases hr : w.store.get r with
        | node label old =>
          rw [hr] at hget
          obtain ⟨hlabel, hold⟩ := (Store.assigns_node hw.acyclic hr).mp hassigns
          rw [hw.acyclic.tree_node hr, hkept.acyclic.tree_node hget]
          exact .node hlabel (hbelow old (by rw [Store.below, hr]; rfl) hold)
        | list items =>
          rw [hr] at hget
          rw [hw.acyclic.tree_list hr, hkept.acyclic.tree_list hget]
          exact .list (.of_forall₂ (hbelow items (by rw [Store.below, hr]; rfl)
            ((Store.assigns_list hw.acyclic hr).mp hassigns)))
  exact hall root hw.root_known hassigns

/-! ## Sessions -/

/-- The tree of a session may stand for the tree that was planted. -/
theorem refines_session {t : Tree} (ht : t.isWellFormed strict = true)
    (hassigns : t.assignsTargets = true) (h : Session t root w) :
    S.Refines t (w.store.tree (some root)) := by
  obtain ⟨s, hs, hhistory⟩ := h.history ht
  obtain ⟨hintact, htree⟩ := intact_planted ht hs
  refine hhistory.keeps (P := fun u => S.Refines t (u.store.tree (some root))) ?_ hintact ?_
  · intro u u' hu hstep hrefines
    cases hstep with
    | grown hgrows hkept =>
      rwa [hgrows.store.tree hu.acyclic hu.closed hkept.acyclic
        (Store.knownAt_some.mpr hu.root_known)]
    | changed hchanges =>
      exact hrefines.trans (refines_refill hu (hchanges.live.reaches hchanges.element) hchanges.own
        hchanges.alters hrefines.assigns)
  · rw [htree]
    exact .refl hassigns

end Semantics

/-- The catalog keeps the meaning of scripts.  Fix any semantics, and let a script be valid and
assign to names and members only.  In every workspace of its session, what running the script does
is the same after any number of steps of any pass of simplifications, in any order and with any
options, and after the optimizer. -/
theorem catalog_keeps_meaning (S : Semantics) {t : Tree} (hshaped : t.isShaped = true)
    (hvalid : t.invalid? = none) (hassigns : t.assignsTargets = true) (hw : Session t root w) :
    (∀ {σ : Type} (pass : Pass σ) (sims : List Simplification) (memory : σ) (fuel : Nat),
      pass.rules = sims.map Simplification.rule →
      S.run ((pass.process fuel w memory (some root)).workspace.store.tree (some root)) =
        S.run t) ∧
    ∀ (o : Options) (fuel : Nat),
      S.run ((o.optimize fuel w (some root)).1.store.tree (some root)) = S.run t := by
  have hwellFormed : t.isWellFormed .schema = true :=
    (isWellFormed_iff rfl).mpr ⟨hshaped, fun h => by simp [Strictness.schema] at h, hvalid⟩
  constructor
  · intro σ pass sims memory fuel hrules
    exact (Semantics.refines_session hwellFormed hassigns (.passed fuel memory hrules hw)).run
  · intro o fuel
    exact (Semantics.refines_session hwellFormed hassigns (hw.optimize o fuel)).run

/-- The semantics of variables that hold primitive values.  Such values have no members and cannot
be called; what cannot be done throws `undefined`. -/
def Semantics.ofVariables : Semantics where
  State := Text → Value
  Val := Value
  primitive := id
  truthy := Value.toBoolean
  truthy_primitive _ := rfl
  identifier name := fun s answer s' => answer = .value (s name) ∧ s' = s
  member object _ := object.next (.throw .undefined)
  call callee _ := callee.next (.throw .undefined)
  assign
    | .name name, expression => do
      let v ← expression
      fun s answer s' => answer = .value v ∧ s' = Function.update s name v
    | .member object _, _ => object.next (.throw .undefined)
  unary operator operand := do
    match evalUnary? operator (← operand) with
    | some u => pure u
    | none => .throw .undefined
  unary_primitive _ _ _ hu := by simp only [id_eq, pure_bind, hu]
  binary operator left right := do
    let l ← left
    if operator = BinaryOp.or.spelling ∧ l.toBoolean = true ∨
        operator = BinaryOp.and.spelling ∧ l.toBoolean = false then pure l
    else
      match evalBinary? operator l (← right) with
      | some v => pure v
      | none => .throw .undefined
  binary_primitive operator l r v hv := by
    simp only [id_eq, pure_bind, hv]
    split
    next hshort =>
      -- the second operand is left out, and the operator gives the first one
      have hl : evalBinary? operator l r = some l := by
        obtain ⟨rfl, htrue⟩ | ⟨rfl, hfalse⟩ := hshort
        · exact congrArg some (if_pos htrue)
        · exact congrArg some (if_neg (by simp [hfalse]))
      rw [Option.some.inj (hv.symm.trans hl)]
    next => rfl
  declare _ _ _ := pure .normal

/-- A script that assigns to a variable in both branches and returns the variable. -/
def branchScript : Tree :=
  .node .script [.list
    [.node .ifStatement
      [.node (.identifierExpression "a") [],
        .node .expressionStatement [.node .assignmentExpression
          [.node (.identifierExpression "x") [], .node (.binaryExpression "+")
            [.node (.stringLiteral "b") [], .node (.stringLiteral "c") []]]],
        .node .expressionStatement [.node .assignmentExpression
          [.node (.identifierExpression "x") [], .node .nullLiteral []]]],
      .node .returnStatement [.node (.identifierExpression "x") []]]]

theorem catalog_keeps_meaning_branchScript :
    branchScript.isShaped = true ∧ branchScript.invalid? = none ∧
      branchScript.assignsTargets = true ∧
      Session branchScript (.cell 14) (.ofStore (Store.empty.plant branchScript).2) ∧
      Semantics.ofVariables.run
          ((({} : Options).optimize 200 (.ofStore (Store.empty.plant branchScript).2)
            (some (.cell 14))).1.store.tree (some (.cell 14))) =
        Semantics.ofVariables.run branchScript := by
  have hshaped : branchScript.isShaped = true := by decide
  have hvalid : branchScript.invalid? = none := by decide +kernel
  have hassigns : branchScript.assignsTargets = true := by decide
  have hw : Session branchScript (.cell 14) (.ofStore (Store.empty.plant branchScript).2) :=
    .planted rfl
  have hkeeps := catalog_keeps_meaning Semantics.ofVariables hshaped hvalid hassigns hw
  exact ⟨hshaped, hvalid, hassigns, hw, hkeeps.2 {} 200⟩

end ScriptSimplifier
