import ScriptSimplifier.Proofs.Pass.FixedPoint
import ScriptSimplifier.Proofs.Pass.Sessions
import ScriptSimplifier.Proofs.Store.Evaluation
import ScriptSimplifier.Proofs.Store.Paths

/-!
# Where callees come from

Folding looks at an expression and what it holds, and never at what holds it.  A conditional
expression with a settled test gives way to the branch that the test selects, also in the place of a
callee, and so the call of a function may become the call of a method.  There is no other way: after
any pass the callee of a call is its former callee, or is reached from there through branches that
settled tests select, or is a fragment (`Turns`).  The invariant of a pass says this of everything
that an expression has been put in place of (`Tracks`).
-/

namespace ScriptSimplifier

open Workspace

/-! ## Settled expressions -/

namespace Store

variable {s : Store} {x y : Ref} {v : Value}

/-- The value of an expression that needs no run: that of a literal, of an operation on settled
operands, and of the branch that a settled test selects. -/
inductive Settles (s : Store) : Ref → Value → Prop
  | literal {r : Ref} {label : Label} {kids : List (Option Ref)} {v : Value} :
      s.get r = .node label kids → label.value? = some v → Settles s r v
  | unary {r o : Ref} {operator : Text} {u v : Value} :
      s.get r = .node (.unaryExpression operator) [some o] → Settles s o u →
      evalUnary? operator u = some v → Settles s r v
  | binary {r a b : Ref} {operator : Text} {x y v : Value} :
      s.get r = .node (.binaryExpression operator) [some a, some b] → Settles s a x →
      Settles s b y → evalBinary? operator x y = some v → Settles s r v
  | selected {r test y : Ref} {c a : Option Ref} {u v : Value} :
      s.get r = .node .conditionalExpression [some test, c, a] → Settles s test u →
      (if u.toBoolean then c else a) = some y → Settles s y v → Settles s r v

/-- A conditional expression with a settled test, and the branch that the test selects. -/
def Selects (s : Store) (x y : Ref) : Prop :=
  ∃ test c a u, s.get x = .node .conditionalExpression [some test, c, a] ∧ s.Settles test u ∧
    (if u.toBoolean then c else a) = some y

/-- An expression is reached from another one through selected branches. -/
def Comes (s : Store) : Ref → Ref → Prop := Relation.ReflTransGen s.Selects

theorem Comes.settles (h : s.Comes x y) (hy : s.Settles y v) : s.Settles x v := by
  induction h using Relation.ReflTransGen.head_induction_on with
  | refl => exact hy
  | head hfirst _ ih =>
    obtain ⟨test, c, a, u, hget, htest, hselected⟩ := hfirst
    exact .selected hget htest hselected ih

/-- What is held by a node all of whose fields are for expressions is one. -/
theorem Typed.isIn_expression {strict : Strictness} (ht : s.Typed strict) {r : Ref} {label : Label}
    {kids : List (Option Ref)} (hr : s.get r = .node label kids)
    (hfields : ∀ f ∈ label.fields, f.isList = false ∧ f.accepts = .expression)
    (hx : some x ∈ kids) : s.isIn .expression (some x) = true := by
  obtain ⟨f, hf, hadmits⟩ := (ht r label kids hr).exists_field hx
  obtain ⟨hsingle, haccepts⟩ := hfields f hf
  rcases (admits_single hsingle).mp hadmits with ⟨hnone, -⟩ | hin
  · cases hnone
  · rwa [haccepts] at hin

/-- An expression was given out: what was not reads as an empty statement. -/
theorem known_of_expression (hx : s.isIn .expression (some x) = true) : s.Known x := by
  by_contra hunknown
  simp [isIn, kind?, label?, get_unknown hunknown, Label.kind, Category.accepts,
    Kind.isExpression] at hx

end Store

/-! ## What may stand for an expression -/

/-- What may have been put in place of an expression: what is reached from it through selected
branches, or the fragment of its settled value. -/
inductive Turns (s : Store) (pool : Pool) (x : Ref) : Ref → Prop
  | came {y : Ref} : s.isIn .expression (some y) = true → s.Comes x y → Turns s pool x y
  | folded {v : Value} {n : Ref} : (v, n) ∈ pool.entries → s.Settles x v → Turns s pool x n

/-- What stands in a place stands for what stood there, if that was an expression. -/
def Follows (s : Store) (pool : Pool) (e e' : Option Ref) : Prop :=
  ∀ y, e' = some y → ∃ x, e = some x ∧ (s.isIn .expression (some x) = true → Turns s pool x y)

theorem Follows.nothing {s : Store} {pool : Pool} {e : Option Ref} : Follows s pool e none :=
  fun _ hy => by cases hy

/-- Every node keeps its label, and in its places stands what may stand for what was there. -/
structure Tracks (s : Store) (u : Workspace) : Prop where
  size : s.cells.size ≤ u.store.cells.size
  node : ∀ r label kids, s.Known r → s.get r = .node label kids →
    ∃ kids', u.store.get r = .node label kids' ∧ List.Forall₂ (Follows s u.pool) kids kids'

variable {s : Store} {u u' : Workspace} {strict : Strictness} {x y r : Ref} {v : Value}

theorem Turns.grows (h : Turns s u.pool x y) (hgrows : u.Grows u') : Turns s u'.pool x y := by
  cases h with
  | came hy hcomes => exact .came hy hcomes
  | folded hmem hsettles => exact .folded (hgrows.mem_entries hmem) hsettles

theorem Turns.prepend {pool : Pool} {z : Ref} (hcomes : s.Comes x z) (h : Turns s pool z y) :
    Turns s pool x y := by
  cases h with
  | came hy hcomes' => exact .came hy (hcomes.trans hcomes')
  | folded hmem hsettles => exact .folded hmem (hcomes.settles hsettles)

/-- The value of what stands for an expression settles the expression. -/
theorem Turns.settles (h : Turns s u.pool x y) (hu : u.Valued) (hv : u.store.Evaluates y v)
    (hown : s.isIn .expression (some y) = true → s.Settles y v) : s.Settles x v := by
  cases h with
  | came hy hcomes => exact hcomes.settles (hown hy)
  | folded hmem hsettles => exact hv.unique (hu.evaluates _ _ hmem) ▸ hsettles

namespace Tracks

theorem refl (w : Workspace) : Tracks w.store w := by
  refine ⟨Nat.le_refl _, fun r label kids _ hr => ⟨kids, hr, List.forall₂_same.mpr ?_⟩⟩
  rintro e - y rfl
  exact ⟨y, rfl, fun hy => .came hy .refl⟩

theorem known (h : Tracks s u) (hr : s.Known r) : u.store.Known r := by
  cases r with
  | emptyStatement | null => trivial
  | cell n => exact Nat.lt_of_lt_of_le hr h.size

/-- An expression that has been there from the beginning has the same label and, in its places, what
may stand for what was there. -/
theorem node_eq (h : Tracks s u) (hr : s.isIn .expression (some r) = true) {label : Label}
    {kids' : List (Option Ref)} (hget : u.store.get r = .node label kids') :
    ∃ kids, s.get r = .node label kids ∧ List.Forall₂ (Follows s u.pool) kids kids' := by
  obtain ⟨r', label', kids, heq, hget', -⟩ := Store.isIn_iff.mp hr
  obtain rfl := Option.some.inj heq
  obtain ⟨more, hmore, hkids⟩ := h.node r label' kids (Store.known_of_expression hr) hget'
  obtain ⟨rfl, rfl⟩ := Cell.node.inj (hget.symm.trans hmore)
  exact ⟨kids, hget', hkids⟩

/-- What evaluates now was settled from the beginning. -/
theorem settles (h : Tracks s u) (ht : s.Typed strict) (hu : u.Valued)
    (hv : u.store.Evaluates y v) (hy : s.isIn .expression (some y) = true) : s.Settles y v := by
  induction hv with
  | literal hget hvalue =>
    obtain ⟨kids, hget', -⟩ := h.node_eq hy hget
    exact .literal hget' hvalue
  | @unary r o operator x v hget ho heval ih =>
    obtain ⟨kids, hget', hkids⟩ := h.node_eq hy hget
    obtain _ | ⟨hoperand, ⟨⟩⟩ := hkids
    obtain ⟨o', rfl, hturns⟩ := hoperand o rfl
    have hin := ht.isIn_expression hget'
      (by simp [Label.fields, Label.kind, Kind.fields, Field.single]) List.mem_cons_self
    exact .unary hget' ((hturns hin).settles hu ho ih) heval
  | @binary r a b operator x y v hget ha hb heval iha ihb =>
    obtain ⟨kids, hget', hkids⟩ := h.node_eq hy hget
    obtain _ | ⟨hleft, _ | ⟨hright, ⟨⟩⟩⟩ := hkids
    obtain ⟨a', rfl, hturnsa⟩ := hleft a rfl
    obtain ⟨b', rfl, hturnsb⟩ := hright b rfl
    have hin : ∀ c, some c ∈ [some a', some b'] → s.isIn .expression (some c) = true :=
      fun c hc => ht.isIn_expression hget'
        (by simp [Label.fields, Label.kind, Kind.fields, Field.single]) hc
    exact .binary hget' ((hturnsa (hin a' (by simp))).settles hu ha iha)
      ((hturnsb (hin b' (by simp))).settles hu hb ihb) heval

/-- A value that is read off what stands for an expression settles the expression. -/
theorem settles_turns (h : Tracks s u) (ht : s.Typed strict) (hu : u.Valued)
    (hv : u.store.Evaluates y v) (hturns : Turns s u.pool x y) : s.Settles x v :=
  hturns.settles hu hv (h.settles ht hu hv)

/-! ## Steps -/

/-- The branch that a conditional expression gives way to was selected from the beginning. -/
theorem selected (h : Tracks s u) (ht : s.Typed strict) (hu : u.Valued)
    (hr : s.isIn .expression (some r) = true) {test c a : Option Ref}
    (hget : u.store.get r = .node .conditionalExpression [test, c, a])
    (htest : u.valueOf? test = some v) (hy : (if v.toBoolean then c else a) = some y) :
    Turns s u.pool r y := by
  obtain ⟨kids, hget', hkids⟩ := h.node_eq hr hget
  have hlength := (ht r _ _ hget').length
  obtain _ | @⟨test', _, kids, _, hfirst,
    _ | @⟨c', _, kids, _, hsecond, _ | @⟨a', _, _, _, hthird, ⟨⟩⟩⟩⟩ := hkids
  have hin : ∀ z, some z ∈ [test', c', a'] → s.isIn .expression (some z) = true :=
    fun z hz => ht.isIn_expression hget'
      (by simp [Label.fields, Label.kind, Kind.fields, Field.single]) hz
  cases test with
  | none => simp [Workspace.valueOf?] at htest
  | some t =>
    obtain ⟨t', rfl, hturns⟩ := hfirst t rfl
    have hsettles := h.settles_turns ht hu (hu.valueOf? htest) (hturns (hin t' (by simp)))
    have hbranch : Follows s u.pool (if v.toBoolean then c' else a') (some y) := by
      rw [← hy]
      split
      · exact hsecond
      · exact hthird
    obtain ⟨z, hz, hturns'⟩ := hbranch y rfl
    have hselects : s.Selects r z := ⟨t', c', a', v, hget', hsettles, hz⟩
    refine .prepend (.single hselects) (hturns' (hin z ?_))
    split at hz <;> simp [← hz]

/-- What replaces what stands for an expression stands for it. -/
theorem step (h : Tracks s u) (ht : s.Typed strict) (hu : u.Kept strict)
    (hturns : Turns s u.pool x r) {n : Ref} (hstep : NodeStep u r (some n) u') :
    Turns s u'.pool x n := by
  have heffect := hstep.effect hu
  cases hturns with
  | folded hmem hsettles =>
    -- fragments are not replaced
    have hown := heffect.own
    simp [shares, Pool.isConstant_iff.mpr ⟨_, hmem⟩] at hown
  | came hr hcomes =>
    have hlabel : ∀ {label kids}, u.store.get r = .node label kids →
        Category.accepts .expression label.kind = true := by
      intro label kids hget
      obtain ⟨kids', hget', -⟩ := h.node_eq hr hget
      simpa [Store.isIn, Store.kind?_node hget'] using hr
    refine .prepend hcomes ?_
    generalize hn : some n = m at hstep
    cases hstep with
    | emptied hget _ _ | unwrapped hget _ _ | returned hget _ _ | lowered _ hget _ _ =>
      cases hlabel hget
    | selected hget htest => exact h.selected ht hu.valued hr hget htest hn.symm
    | @unary _ operand _ v hget _ hoperand heval =>
      obtain rfl := Option.some.inj hn
      obtain ⟨-, -, hentry⟩ := hu.constant v
      refine .folded hentry (h.settles ht hu.valued ?_ hr)
      cases operand with
      | none => simp [Workspace.valueOf?] at hoperand
      | some o => exact .unary hget (hu.valued.valueOf? hoperand) heval
    | @binary _ left right _ _ v hget _ hleft hright heval =>
      obtain rfl := Option.some.inj hn
      obtain ⟨-, -, hentry⟩ := hu.constant v
      refine .folded hentry (h.settles ht hu.valued ?_ hr)
      cases left with
      | none => simp [Workspace.valueOf?] at hleft
      | some a =>
        cases right with
        | none => simp [Workspace.valueOf?] at hright
        | some b =>
          exact .binary hget (hu.valued.valueOf? hleft) (hu.valued.valueOf? hright) heval

theorem grows (h : Tracks s u) (hgrows : u.Grows u') : Tracks s u' := by
  refine ⟨Nat.le_trans h.size hgrows.store.size, fun r label kids hr hget => ?_⟩
  obtain ⟨kids', hget', hkids⟩ := h.node r label kids hr hget
  refine ⟨kids', by rw [hgrows.store.get r (h.known hr), hget'], hkids.imp ?_⟩
  intro e e' hfollows y hy
  obtain ⟨x, rfl, hturns⟩ := hfollows y hy
  exact ⟨x, rfl, fun hx => (hturns hx).grows hgrows⟩

/-- What an edit gives an element stands for what was there. -/
theorem alters (h : Tracks s u) (ht : s.Typed strict) (hu : u.Kept strict)
    {kids : List (Option Ref)} (halters : Alters u u' x kids) : Tracks s (u'.refill x kids) := by
  have hgrows := (halters.suits hu).grows
  have hgrown := h.grows hgrows
  refine ⟨by simpa [Workspace.refill, Store.refill] using hgrown.size,
    fun r label old hr hget => ?_⟩
  obtain ⟨old', hget', hold⟩ := hgrown.node r label old hr hget
  rcases u'.store.get_refill_cases x kids r with hsame | ⟨rfl, hrefill⟩
  · exact ⟨old', by rw [Workspace.refill, hsame, hget'], hold⟩
  · refine ⟨kids, by rw [Workspace.refill, hrefill, hget']; rfl, ?_⟩
    -- the altered node is a tracked one, and the new child follows from the child in its place
    have hbefore : u.store.get r = .node label old' := by
      rw [← hgrows.store.get r (h.known hr), hget']
    cases halters with
    | list hlist _ => cases hbefore.symm.trans hlist
    | @node q n i hstep hi =>
      have hbelow : u.store.below r = old' := Store.below_node hbefore
      rw [hbelow] at hi ⊢
      obtain ⟨more, hmore, hfollows⟩ := h.node r label old hr hget
      obtain ⟨-, rfl⟩ := Cell.node.inj (hbefore.symm.trans hmore)
      refine forall₂_set hold fun e he => ?_
      have hplace := Store.getElem?_related (R := Follows s u.pool) .nothing hfollows i
      rw [he, hi] at hplace
      obtain ⟨y, rfl, hturns⟩ := hplace q rfl
      intro m hm
      obtain rfl := Option.some.inj hm
      exact ⟨y, rfl, fun hy => h.step ht hu (hturns hy) hstep⟩

theorem evolves (h : Tracks s u) (ht : s.Typed strict) {root : Ref} (hu : u.Intact strict root)
    (hevolves : Evolves strict root u u') : Tracks s u' := by
  cases hevolves with
  | grown hgrows _ => exact h.grows hgrows
  | changed hchanges => exact h.alters ht hu.toKept hchanges.alters

/-- The callee of a call that has been there from the beginning stands for its former callee. -/
theorem callee (h : Tracks s u) (ht : s.Typed strict) {call m : Ref}
    (hcall : s.label? call = some .callExpression)
    (hm : u.store.child call "callee" = some m) :
    ∃ x, s.child call "callee" = some x ∧ Turns s u.pool x m := by
  cases hget : s.get call with
  | list items => simp [Store.label?, hget] at hcall
  | node label kids =>
    obtain rfl : label = .callExpression := by simpa [Store.label?, hget] using hcall
    have hknown : s.Known call := by
      by_contra hunknown
      cases hget.symm.trans (Store.get_unknown hunknown)
    obtain ⟨kids', hget', hkids⟩ := h.node call _ kids hknown hget
    have hfollows :=
      Store.child_related (R := Follows s u.pool) .nothing hget hget' hkids "callee"
    obtain ⟨x, hx, hturns⟩ := hfollows m hm
    refine ⟨x, hx, hturns ?_⟩
    obtain ⟨e, f, rfl, hadmits, -⟩ := (ht call _ _ hget).two rfl
    obtain rfl : e = some x :=
      (Store.child_field hget (f := .single "callee" .expression) (i := 0) rfl).symm.trans hx
    rcases (Store.admits_single rfl).mp hadmits with ⟨hnone, -⟩ | hin
    · cases hnone
    · exact hin

end Tracks

/-! ## Method calls -/

/-- A fragment is no member of an object. -/
theorem Workspace.Valued.not_member (hu : u.Valued) (hm : (v, y) ∈ u.pool.entries) :
    u.store.kind? y ≠ some .staticMemberExpression := by
  obtain ⟨label, kids, hget, hspelling⟩ := hu.spelled v y hm
  rw [Store.kind?_node hget]
  cases hspelling with
  | unary _ _ | binary _ _ _ => simp [Label.kind]
  | literal hvalue => cases label <;> simp_all [Label.kind, Label.value?]

/-- A call becomes the call of a method only through branches that settled tests select.  Let a
script be valid, and let any pass of simplifications, with any options and of any length, run in a
workspace of its session.  If afterwards the callee of a call that was there before is a member of
an object, then this very member was the callee of the call before, or the callee was a conditional
expression from which the member is reached by going, at each conditional expression on the way, to
the branch that its test selects, where each of these tests has a value that needs no run. -/
theorem method_call_selected {σ : Type} {pass : Pass σ} {sims : List Simplification} {t : Tree}
    {root : Ref} {w : Workspace} (hshaped : t.isShaped = true) (hvalid : t.invalid? = none)
    (hw : Session t root w) (hrules : pass.rules = sims.map Simplification.rule) (fuel : Nat)
    (memory : σ) {call m : Ref} (hcall : w.store.label? call = some .callExpression)
    (hm : (pass.process fuel w memory (some root)).workspace.store.child call "callee" = some m)
    (hmember : (pass.process fuel w memory (some root)).workspace.store.kind? m =
      some .staticMemberExpression) :
    ∃ callee, w.store.child call "callee" = some callee ∧ w.store.Comes callee m ∧
      w.store.kind? m = some .staticMemberExpression := by
  have hwellFormed : t.isWellFormed .schema = true :=
    (isWellFormed_iff rfl).mpr ⟨hshaped, nofun, hvalid⟩
  have hintact : w.Intact .schema root := hw.intact hwellFormed
  have hhistory := process_history hrules hintact fuel memory
  have hleft := hhistory.intact hintact
  have htracks := hhistory.keeps (P := Tracks w.store)
    (fun hu hevolves htracks => htracks.evolves hintact.typed hu hevolves) hintact (.refl w)
  obtain ⟨callee, hcallee, hturns⟩ := htracks.callee hintact.typed hcall hm
  cases hturns with
  | folded hmem _ => exact absurd hmember (hleft.toKept.valued.not_member hmem)
  | came hin hcomes =>
    refine ⟨callee, hcallee, hcomes, ?_⟩
    cases hget : (pass.process fuel w memory (some root)).workspace.store.get m with
    | list items => simp [Store.kind?, Store.label?, hget] at hmember
    | node label kids =>
      obtain ⟨kids', hget', -⟩ := htracks.node_eq hin hget
      rw [Store.kind?_node hget', ← hmember, Store.kind?_node hget]

/-- The script of the statement `(true ? a.b : c)();`. -/
def conditionalCallee : Tree :=
  .node .script [.list [.node .expressionStatement [.node .callExpression
    [.node .conditionalExpression
      [.node (.booleanLiteral true) [],
        .node (.staticMemberExpression "b") [.node (.identifierExpression "a") []],
        .node (.identifierExpression "c") []],
      .list []]]]]

/-- The call of a conditional expression becomes the call of a method. -/
theorem conditional_call_becomes_method_call :
    let w := Workspace.ofStore (Store.empty.plant conditionalCallee).2
    let left := (({} : Options).pass "fold" [.foldConditional]).process 100 w () (some (.cell 9))
    (conditionalCallee.isShaped = true ∧ conditionalCallee.hasOperators = true ∧
        conditionalCallee.invalid? = none ∧ conditionalCallee.kind? = some .script ∧
        Session conditionalCallee (.cell 9) w) ∧
      (∃ stats, left.report = .done stats) ∧
      w.store.label? (.cell 6) = some .callExpression ∧
      left.workspace.store.label? (.cell 6) = some .callExpression ∧
      (w.store.follow (some (.cell 9))
          [.field "statements", .index 0, .field "expression"] = some (.cell 6) ∧
        left.workspace.store.follow (some (.cell 9))
          [.field "statements", .index 0, .field "expression"] = some (.cell 6)) ∧
      (w.store.child (.cell 6) "callee").bind w.store.kind? = some .conditionalExpression ∧
      (left.workspace.store.child (.cell 6) "callee").bind left.workspace.store.kind? =
        some .staticMemberExpression := by
  intro w left
  have hedits : left.report.edits? = some 1 := by decide +kernel
  obtain ⟨stats, hdone, -⟩ := Report.done_of_edits? hedits
  exact ⟨⟨by decide, by decide, by decide +kernel, rfl, .planted rfl⟩, ⟨stats, hdone⟩, by decide,
    by decide +kernel, ⟨by decide, by decide +kernel⟩, by decide, by decide +kernel⟩

/-- The member is the branch that `true` selects. -/
theorem method_call_selected_conditionalCallee :
    let w := Workspace.ofStore (Store.empty.plant conditionalCallee).2
    ∃ callee, w.store.child (.cell 6) "callee" = some callee ∧ w.store.Comes callee (.cell 2) ∧
      w.store.kind? (.cell 2) = some .staticMemberExpression := by
  have hw : Session conditionalCallee (.cell 9)
      (.ofStore (Store.empty.plant conditionalCallee).2) := .planted rfl
  have hrules : (({} : Options).pass "fold" [.foldConditional]).rules =
      [Simplification.foldConditional].map Simplification.rule := rfl
  exact method_call_selected (by decide) (by decide +kernel) hw hrules 100 () rfl
    (by decide +kernel) (by decide +kernel)

end ScriptSimplifier
