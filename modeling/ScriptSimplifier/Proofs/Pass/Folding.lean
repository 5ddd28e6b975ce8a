import ScriptSimplifier.Proofs.Pass.OrderIndependence
import ScriptSimplifier.Proofs.Store.Evaluation
import ScriptSimplifier.Proofs.Store.Paths

/-!
# Folding computes values

A pass that only folds operations leaves, in the place of every largest expression with a value, the
fragment of that value, and everything else where it is.  The normal form for this rule shows it: an
element has a value in its normal form exactly if it evaluates to it (`Kept.evaluates_iff`), and the
tree after the pass has its normal form in all places (`follow_normal`).
-/

namespace ScriptSimplifier

open Workspace

/-- The rules of a pass that only folds operations. -/
abbrev Simplification.folding : List Simplification := [.foldConstant]

/-! ## Values below values -/

namespace Store

variable {s : Store} {r : Ref}

/-- What stands below an expression with a value has a value. -/
theorem Evaluates.holds {strict : Strictness} (ht : s.Typed strict) {v : Value}
    (h : s.Evaluates r v) {x : Ref} (hx : s.Holds r x) : ∃ u, s.Evaluates x u := by
  rw [Store.Holds, Store.below] at hx
  cases h with
  | @literal _ label kids _ hget hvalue =>
    have hlength := (ht r label kids hget).length
    rw [Label.fields_of_value hvalue, List.length_nil, List.length_eq_zero_iff] at hlength
    simp [hget, Cell.below, hlength] at hx
  | unary hget ho _ =>
    obtain rfl : x = _ := by simpa [hget, Cell.below] using hx
    exact ⟨_, ho⟩
  | binary hget ha hb _ =>
    rcases (by simpa [hget, Cell.below] using hx : x = _ ∨ x = _) with rfl | rfl
    · exact ⟨_, ha⟩
    · exact ⟨_, hb⟩

theorem Evaluates.follow {strict : Strictness} (ht : s.Typed strict) {v : Value}
    (h : s.Evaluates r v) {path : List Key} {x : Ref} (hx : s.follow (some r) path = some x) :
    ∃ u, s.Evaluates x u := by
  induction path generalizing r v with
  | nil => exact ⟨v, Option.some.inj hx ▸ h⟩
  | cons key path ih =>
    rw [follow_cons] at hx
    cases hbelow : Cursor.elementBelow s (some r) key with
    | none =>
      have hnone : ∀ path, s.follow none path = none := fun path => by
        induction path with
        | nil => rfl
        | cons key path ih => exact ih
      rw [hbelow, hnone] at hx
      cases hx
    | some c =>
      obtain ⟨u, hu⟩ := h.holds ht (Cursor.holds_elementBelow hbelow)
      exact ih hu (hbelow ▸ hx)

end Store

/-! ## Normal forms -/

namespace Sketch

/-- The value of an operation on values. -/
def operation? : Label → List Sketch → Option Value
  | .unaryExpression operator, [operand] => operand.value?.bind (evalUnary? operator)
  | .binaryExpression operator, [left, right] =>
    left.value?.bind fun x => right.value?.bind (evalBinary? operator x)
  | _, _ => none

/-- An operation on values becomes its value, and anything else stays. -/
theorem reduce_folding (label : Label) (children : List Sketch) :
    reduce Simplification.folding label children =
      ((operation? label children).map .constant).getD (.node label children) := by
  rw [reduce]
  congr 1
  cases label with
  | unaryExpression operator =>
    rcases children with _ | ⟨operand, _ | _⟩ <;> try rfl
    cases hoperand : operand.value? <;>
      simp [reduce?, foldUnary?, operation?, hoperand, Option.map_eq_bind]
  | binaryExpression operator =>
    rcases children with _ | ⟨left, _ | ⟨right, _ | _⟩⟩ <;> try rfl
    cases hleft : left.value? <;> cases hright : right.value? <;>
      simp [reduce?, foldBinary?, operation?, hleft, hright, Option.map_eq_bind]
  | _ => simp [reduce?, operation?]

theorem value?_reduce_folding (label : Label) (children : List Sketch) :
    (reduce Simplification.folding label children).value? =
      (operation? label children).or label.value? := by
  rw [reduce_folding]
  cases operation? label children <;> rfl

end Sketch

namespace Workspace

variable {strict : Strictness} {w : Workspace} {r : Ref} {v : Value}

/-- What an element evaluates to is the value of its normal form. -/
theorem Kept.evaluates_iff (hw : w.Kept strict) :
    w.store.Evaluates r v ↔ (w.normal Simplification.folding (some r)).value? = some v := by
  -- operands are below their operation; a fragment has the value it was entered with
  induction r using hw.acyclic.induction generalizing v with
  | step r ih =>
    cases hvalue : w.pool.valueOf? r with
    | some u =>
      have hu := hw.valued.evaluates u r (Pool.valueOf?_eq_some hvalue)
      rw [normal_fragment hw.acyclic hvalue, Sketch.value?, Option.some.injEq]
      exact ⟨fun h => h.unique hu, fun h => h ▸ hu⟩
    | none =>
      cases hget : w.store.get r with
      | list items =>
        rw [normal_list hw.acyclic hvalue hget]
        simp only [Sketch.value?, reduceCtorEq, iff_false]
        intro h
        cases h <;> simp_all
      | node label kids =>
        have hholds : ∀ c, some c ∈ kids → w.store.Holds r c := fun c hc => by
          rw [Store.Holds, Store.below, hget]
          exact hc
        rw [normal_node hw.acyclic hvalue hget, Sketch.value?_reduce_folding]
        have hlength := (hw.typed r label kids hget).length
        cases label with
        | unaryExpression operator =>
          obtain ⟨e, rfl⟩ := List.length_eq_one_iff.mp hlength
          rw [Store.evaluates_unary hget]
          cases e with
          | none => simp [Sketch.operation?, Sketch.value?, Label.value?]
          | some o =>
            simp [Sketch.operation?, Label.value?, ← ih o (hholds o (by simp)),
              Option.bind_eq_some_iff]
        | binaryExpression operator =>
          obtain ⟨e, f, rfl⟩ := List.length_eq_two.mp hlength
          rw [Store.evaluates_binary hget]
          cases e with
          | none => simp [Sketch.operation?, Sketch.value?, Label.value?]
          | some a =>
            cases f with
            | none => simp [Sketch.operation?, Sketch.value?, Label.value?]
            | some b =>
              simp [Sketch.operation?, Label.value?, ← ih a (hholds a (by simp)),
                ← ih b (hholds b (by simp)), Option.bind_eq_some_iff]
        | _ =>
          rw [Store.evaluates_label hget (by simp) (by simp)]
          simp [Sketch.operation?]

/-- An operation that evaluates has its value as its normal form. -/
theorem Kept.normal_operation (hw : w.Kept strict) (h : w.store.Evaluates r v)
    {label : Label} {kids : List (Option Ref)} (hget : w.store.get r = .node label kids)
    (hoperation : label.value? = none) :
    w.normal Simplification.folding (some r) = .constant v := by
  have hv := hw.evaluates_iff.mp h
  cases hvalue : w.pool.valueOf? r with
  | some u =>
    rw [normal_fragment hw.acyclic hvalue] at hv ⊢
    exact congrArg Sketch.constant (Option.some.inj hv)
  | none =>
    rw [normal_node hw.acyclic hvalue hget, Sketch.value?_reduce_folding, hoperation,
      Option.or_none] at hv
    rw [normal_node hw.acyclic hvalue hget, Sketch.reduce_folding, hv]
    rfl

/-- A node without value keeps its label. -/
theorem Kept.normal_open (hw : w.Kept strict) (hopen : ∀ v, ¬ w.store.Evaluates r v)
    {label : Label} {kids : List (Option Ref)} (hget : w.store.get r = .node label kids) :
    w.normal Simplification.folding (some r) =
      .node label (kids.map (w.normal Simplification.folding)) := by
  cases hvalue : w.pool.valueOf? r with
  | some u => exact absurd (hw.valued.evaluates u r (Pool.valueOf?_eq_some hvalue)) (hopen u)
  | none =>
    cases hoperation : Sketch.operation? label (kids.map (w.normal Simplification.folding)) with
    | some u =>
      refine absurd (hw.evaluates_iff.mpr ?_) (hopen u)
      rw [normal_node hw.acyclic hvalue hget, Sketch.value?_reduce_folding, hoperation,
        Option.some_or]
    | none =>
      rw [normal_node hw.acyclic hvalue hget, Sketch.reduce_folding, hoperation]
      rfl

theorem Kept.normal_items (hw : w.Kept strict) {items : List (Option Ref)}
    (hget : w.store.get r = .list items) :
    w.normal Simplification.folding (some r) =
      .list (items.map (w.normal Simplification.folding)) := by
  have hsettle : ∀ children, Sketch.settle Simplification.folding children = children :=
    Sketch.settle_of_no_list_rule (by simp) (by simp) (by simp)
  rw [normal_list hw.acyclic (hw.valueOf?_list hget) hget, hsettle]

/-! ## Following keys through the normal form -/

theorem forall₂_of_map_eq {α β γ : Type*} {f : α → γ} {g : β → γ} {l : List α} {l' : List β}
    (h : l.map f = l'.map g) : List.Forall₂ (fun a b => g b = f a) l l' := by
  rw [← List.forall₂_eq_eq_eq, List.forall₂_map_left_iff, List.forall₂_map_right_iff] at h
  exact h.imp fun _ _ heq => heq.symm

/-- Where the tree has its normal form, a step below an element without value leads to the normal
form again. -/
theorem elementBelow_normal {u : Workspace} (hw : w.Kept strict) (hu : u.Kept strict)
    {e e' : Option Ref} (h : u.sketch e' = w.normal Simplification.folding e)
    (hopen : ∀ r, e = some r → ∀ v, ¬ w.store.Evaluates r v) (key : Key) :
    u.sketch (Cursor.elementBelow u.store e' key) =
      w.normal Simplification.folding (Cursor.elementBelow w.store e key) := by
  have hnone : u.sketch none = w.normal Simplification.folding none := by simp [sketch]
  cases e with
  | none =>
    cases e' with
    | none => simpa [Cursor.elementBelow] using hnone
    | some r' => exact absurd (h.trans normal_none) (sketch_ne_missing hu.acyclic r')
  | some r =>
    -- without a value of its own, an element has a normal form of its shape, part by part
    cases hget : w.store.get r with
    | node label kids =>
      rw [hw.normal_open (hopen r rfl) hget] at h
      obtain ⟨r', kids', rfl, -, hget', hkids⟩ := sketch_eq_node hu.acyclic h
      have halike : Store.Alike (fun e e' => u.sketch e' = w.normal Simplification.folding e)
          (w.store.get r) (u.store.get r') := by
        rw [hget, hget']
        exact .node (forall₂_of_map_eq hkids)
      exact halike.elementBelow hnone key
    | list items =>
      rw [hw.normal_items hget] at h
      obtain ⟨r', items', rfl, hget', hitems⟩ := sketch_eq_list hu.acyclic h
      have halike : Store.Alike (fun e e' => u.sketch e' = w.normal Simplification.folding e)
          (w.store.get r) (u.store.get r') := by
        rw [hget, hget']
        exact .list (forall₂_of_map_eq hitems)
      exact halike.elementBelow hnone key

/-- Where the tree has its normal form, keys that pass no element with a value lead to the normal
form of what they led to. -/
theorem follow_normal {u : Workspace} (hw : w.Kept strict) (hu : u.Kept strict)
    {e e' : Option Ref} (h : u.sketch e' = w.normal Simplification.folding e) {path : List Key}
    (hopen : ∀ front key rest r, path = front ++ key :: rest → w.store.follow e front = some r →
      ∀ v, ¬ w.store.Evaluates r v) :
    u.sketch (u.store.follow e' path) =
      w.normal Simplification.folding (w.store.follow e path) := by
  induction path generalizing e e' with
  | nil => exact h
  | cons key path ih =>
    refine ih (elementBelow_normal hw hu h (fun r hr => hopen [] key path r rfl hr) key) ?_
    rintro front key' rest r rfl hr
    exact hopen (key :: front) key' rest r rfl hr

/-! ## What a pass leaves in place -/

/-- Every element has its form, and each of its places holds what it held or a fragment. -/
structure Patched (w u : Workspace) : Prop where
  size : w.store.cells.size ≤ u.store.cells.size
  alike : ∀ r, w.store.Known r → Store.Alike (fun e e' => e' = e ∨ u.pool.isConstant e' = true)
    (w.store.get r) (u.store.get r)

theorem Patched.refl (w : Workspace) : w.Patched w :=
  ⟨Nat.le_refl _, fun _ _ => .refl (fun _ => .inl rfl) _⟩

theorem Patched.known {u : Workspace} (h : w.Patched u) (hr : w.store.Known r) :
    u.store.Known r := by
  cases r with
  | emptyStatement | null => trivial
  | cell n => exact Nat.lt_of_lt_of_le hr h.size

theorem Patched.grows {u u' : Workspace} (h : w.Patched u) (hgrows : u.Grows u') :
    w.Patched u' := by
  refine ⟨Nat.le_trans h.size hgrows.store.size, fun r hr => ?_⟩
  rw [hgrows.store.get r (h.known hr)]
  refine (h.alike r hr).mono fun e e' he => he.imp id fun hconstant => ?_
  cases e' with
  | none => simp [Pool.isConstant] at hconstant
  | some c =>
    obtain ⟨v, hv⟩ := Pool.isConstant_iff.mp hconstant
    exact Pool.isConstant_iff.mpr ⟨v, hgrows.mem_entries hv⟩

theorem Patched.refill {u : Workspace} (h : w.Patched u) {x : Ref} {kids : List (Option Ref)}
    {i : Nat} {m : Option Ref} (hm : u.pool.isConstant m = true)
    (hkids : kids = (u.store.below x).set i m) : w.Patched (u.refill x kids) := by
  refine ⟨by simpa [Workspace.refill, Store.refill] using h.size, fun r hr => ?_⟩
  rcases u.store.get_refill_cases x kids r with hget | ⟨rfl, hget⟩
  · rw [Workspace.refill, hget]
    exact h.alike r hr
  · rw [Workspace.refill, hget, hkids, Store.below]
    exact (h.alike r hr).refill_set (fun _ => .inr hm) i

/-- Folding puts the fragment of a value in place of an operation. -/
theorem foldOperation_constant {place : Cursor} {edit : Edit} {w' : Workspace}
    (h : Folding.foldOperation place w = some (edit, w')) :
    ∃ v, edit = .put place (some (w.constant v).1) ∧ w' = (w.constant v).2 := by
  rw [Folding.foldOperation] at h
  obtain ⟨r, -, h⟩ := Option.bind_eq_some_iff.mp h
  split_ifs at h
  split at h
  · obtain ⟨_, _, h⟩ := Option.bind_eq_some_iff.mp h
    obtain ⟨_, _, h⟩ := Option.bind_eq_some_iff.mp h
    obtain ⟨v, _, h⟩ := Option.bind_eq_some_iff.mp h
    obtain ⟨rfl, rfl⟩ := Prod.mk.inj (Option.some.inj h)
    exact ⟨v, rfl, rfl⟩
  · obtain ⟨_, _, h⟩ := Option.bind_eq_some_iff.mp h
    obtain ⟨v, _, h⟩ := Option.bind_eq_some_iff.mp h
    obtain ⟨rfl, rfl⟩ := Prod.mk.inj (Option.some.inj h)
    exact ⟨v, rfl, rfl⟩
  · cases h

theorem Patched.fold {u u' : Workspace} {root : Ref} (h : w.Patched u)
    (hu : u.Intact strict root) {place : Cursor} (hplace : place.Live u.store root) {edit : Edit}
    (hpropose : Folding.foldOperation place u = some (edit, u')) {store : Store}
    (happly : edit.apply (some u'.pool) u'.store = (store, none)) : w.Patched ⟨store, u'.pool⟩ := by
  obtain ⟨r, n, hr, hstep, hedit⟩ := foldOperation_step hpropose
  obtain ⟨v, rfl, rfl⟩ := foldOperation_constant hpropose
  obtain rfl : some (u.constant v).1 = n := by
    have hsame := congrArg Cursor.element (Edit.replace.inj hedit)
    rwa [element_withElement, element_withElement] at hsame
  obtain ⟨hgrows, hkept, hentry⟩ := hu.toKept.constant v
  cases place with
  | root e =>
    rw [apply_put_root _ (hstep.effect hu.toKept).isNode.2] at happly
    cases happly
  | step parent key e =>
    obtain rfl : e = some r := hr
    obtain ⟨x, i, -, hchanges, happly'⟩ := hstep.changes hu hplace
    obtain ⟨rfl, -⟩ := Prod.mk.inj (happly.symm.trans happly')
    have hx : u.store.Known x :=
      hu.known_of_reaches hu.root_known (hchanges.live.reaches hchanges.element)
    exact (h.grows hgrows).refill (Pool.isConstant_iff.mpr ⟨v, hentry⟩)
      (by rw [hgrows.store.below hx])

end Workspace

variable {σ : Type} {pass : Pass σ} {strict : Strictness} {root : Ref} {w : Workspace}

namespace Run

theorem Moves.patched {run run' : Run σ} (h : Moves Simplification.folding pass root run run')
    (hrun : run.Sound strict root) (hpatched : w.Patched run.workspace) :
    w.Patched run'.workspace := by
  cases h with
  | closed _ _ | entered _ _ _ _ | left _ _ _ _ _ _ => exact hpatched
  | @edited task task' rest place fresh visits edit w' store stats htasks hagenda hroot hagenda'
      hproposes happly hvalid =>
    obtain ⟨hlive, -⟩ := Proposes.changes hrun (mem_agenda htasks hagenda) hproposes happly
    obtain ⟨sim, hsim, hpropose⟩ := hproposes.propose
    obtain rfl := List.mem_singleton.mp hsim
    rw [workspace_reschedule]
    exact hpatched.fold hrun.intact hlive hpropose happly

end Run

/-- Whatever a pass that only folds operations did to a script, every place holds what it held or a
fragment. -/
theorem process_patched (hrules : pass.rules = Simplification.folding.map Simplification.rule)
    (hlimit : pass.limit = none) (hcomplete : strict.complete = true) (hw : w.Intact strict root)
    (hscript : w.store.kind? root = some .script) (fuel : Nat) (memory : σ) :
    w.Patched (pass.process fuel w memory (some root)).workspace := by
  rcases process_workspace fuel w memory root with hsame | ⟨before, hrun⟩
  · rw [hsame]
    exact .refl w
  · rw [hrun]
    rcases Run.steps_induction hrules
      (P := fun run => run.Sound strict root ∧ w.Patched run.workspace ∧
        run.workspace.store.kind? root = some .script)
      (fun _ _ ⟨hsound, hpatched, hkind⟩ hmoves => ⟨hmoves.sound hsound,
        hmoves.patched hsound hpatched, ((hmoves.history hsound).kind hsound.intact).trans hkind⟩)
      ⟨Run.sound_start hw memory before, .refl w, hscript⟩ fuel with
      ⟨⟨-, hpatched, -⟩, -⟩ | ⟨run, ending, ⟨hsound, hpatched, hkind⟩, hends, -⟩
    · exact hpatched
    · rcases hends.cases hsound with ⟨-, hlast, -⟩ | ⟨_, _, _, _, _, _, _, hhalts⟩
      · exact hlast ▸ hpatched
      · exact absurd hhalts (Run.not_halts_script hlimit hcomplete hsound.intact hkind)

/-- What has no value is no fragment in the normal form. -/
theorem Workspace.Kept.normal_ne_constant (hw : w.Kept strict) {r : Ref}
    (hopen : ∀ v, ¬ w.store.Evaluates r v) (v : Value) :
    w.normal Simplification.folding (some r) ≠ .constant v :=
  fun h => hopen v (hw.evaluates_iff.mpr (congrArg Sketch.value? h))

/-- An element stays where it is if neither it nor anything above it has a value. -/
theorem follow_open {u : Workspace} (hw : w.Kept strict) (hu : u.Kept strict)
    (hpatched : w.Patched u) {e : Option Ref} (hknown : w.store.KnownAt e)
    (h : u.sketch e = w.normal Simplification.folding e) {path : List Key}
    (hopen : ∀ front rest r, path = front ++ rest → w.store.follow e front = some r →
      ∀ v, ¬ w.store.Evaluates r v) : u.store.follow e path = w.store.follow e path := by
  induction path generalizing e with
  | nil => rfl
  | cons key path ih =>
    have hnext := elementBelow_normal hw hu h (fun r hr => hopen [] _ r rfl hr) key
    have hsame : Cursor.elementBelow u.store e key = Cursor.elementBelow w.store e key := by
      cases e with
      | none => cases key <;> rfl
      | some r =>
        rcases (hpatched.alike r (Store.knownAt_some.mp hknown)).elementBelow (.inl rfl) key with
          hsame | hconstant
        · exact hsame
        · -- a fragment is no normal form of an element without value
          obtain ⟨c, hc, hvalue⟩ : ∃ c, Cursor.elementBelow u.store (some r) key = some c ∧
              (u.pool.valueOf? c).isSome = true := by
            simpa [Pool.isConstant, Option.any_eq_true] using hconstant
          obtain ⟨v, hv⟩ := Option.isSome_iff_exists.mp hvalue
          rw [hc, sketch, normal_fragment hu.acyclic hv] at hnext
          cases hbelow : Cursor.elementBelow w.store (some r) key with
          | none => simp [hbelow] at hnext
          | some x =>
            rw [hbelow] at hnext
            exact absurd hnext.symm (hw.normal_ne_constant (hopen [key] path x rfl hbelow) v)
    rw [Store.follow_cons, Store.follow_cons, hsame]
    exact ih (hw.closed.elementBelow key) (hsame ▸ hnext) fun front rest r hpath hr =>
      hopen (key :: front) rest r (congrArg (key :: ·) hpath) hr

/-- Nothing above an element without value has one. -/
theorem Store.follow_front {s : Store} (ht : s.Typed strict) {e : Option Ref}
    {front rest : List Key} {above r : Ref} (habove : s.follow e front = some above)
    (hr : s.follow e (front ++ rest) = some r) (hopen : ∀ v, ¬ s.Evaluates r v) (v : Value) :
    ¬ s.Evaluates above v := by
  intro hv
  rw [follow_append, habove] at hr
  obtain ⟨u, hu⟩ := hv.follow ht hr
  exact hopen u hu

/-- Folding computes values.  Let a script be valid, with an operator in every unary operation, and
be planted in a new workspace.  A pass without limit whose only rule folds operations ends in order.
Then every closed constant expression that is an operation, and that no closed constant expression
holds, has given its place to the fragment of its value, the very node that the pool has for the
value.  Every element that is no closed constant expression is where it was and has the label that
it had. -/
theorem folding_computes_values {t : Tree} (hshaped : t.isShaped = true)
    (hoperators : t.hasOperators = true) (hvalid : t.invalid? = none)
    (hscript : t.kind? = some .script) {s : Store} (hs : Store.empty.plant t = (some root, s))
    (hrules : pass.rules = [Simplification.foldConstant.rule]) (hlimit : pass.limit = none)
    (memory : σ) :
    ∃ n left, (∀ fuel, n ≤ fuel →
        (pass.process fuel (.ofStore s) memory (some root)).workspace = left ∧
        ∃ stats, (pass.process fuel (.ofStore s) memory (some root)).report = .done stats) ∧
      let store := (Workspace.ofStore s).store
      (∀ path key above r, store.follow (some root) path = some above →
        ¬ store.ClosedConstant above → store.follow (some root) (path ++ [key]) = some r →
        store.ClosedConstant r → (store.label? r).bind Label.value? = none →
        ∃ v q, store.Evaluates r v ∧ left.store.follow (some root) (path ++ [key]) = some q ∧
          left.constant v = (q, left)) ∧
      ∀ path r, store.follow (some root) path = some r → ¬ store.ClosedConstant r →
        left.store.follow (some root) path = some r ∧ left.store.label? r = store.label? r := by
  have hwellFormed : t.isWellFormed .full = true :=
    (isWellFormed_iff rfl).mpr ⟨hshaped, fun _ => hoperators, hvalid⟩
  have hfolding : pass.rules = Simplification.folding.map Simplification.rule := hrules
  have hw := (intact_planted hwellFormed hs).1
  have hkind : (Workspace.ofStore s).store.kind? root = some .script :=
    ((Session.planted hs).kind hwellFormed).trans hscript
  obtain ⟨before, hbefore⟩ := hw.fingerprint rfl
  obtain ⟨n, left, hleft, hintact, hexact, hsketch⟩ :=
    process_script hfolding hlimit rfl hw (exact_planted hwellFormed hs) hkind hbefore memory
  have hpatched : (Workspace.ofStore s).Patched left := by
    rw [← (hleft n (Nat.le_refl n)).1]
    exact process_patched hfolding hlimit rfl hw hkind n memory
  have hnone : ∀ {r}, ¬ (Workspace.ofStore s).store.ClosedConstant r →
      ∀ v, ¬ (Workspace.ofStore s).store.Evaluates r v :=
    fun hopen v hv => hopen (Store.closedConstant_iff.mpr ⟨v, hv⟩)
  refine ⟨n, left, fun fuel hfuel => ⟨(hleft fuel hfuel).1, (hleft fuel hfuel).2 rfl⟩,
    fun path key above r habove hopen hr hconstant hoperation => ?_, fun path r hr hopen => ?_⟩
  · obtain ⟨v, hv⟩ := Store.closedConstant_iff.mp hconstant
    obtain ⟨label, kids, hget⟩ := hv.node
    have hlabel : label.value? = none := by
      rw [← hoperation, Store.label?, hget]
      rfl
    -- on the way down to the operation nothing has a value, so the way leads to the same places
    have hfront : left.sketch (left.store.follow (some root) path) = _ :=
      follow_normal hw.toKept hintact.toKept hsketch fun front _ _ _ hpath hfollow =>
        Store.follow_front hw.typed hfollow (hpath ▸ habove) (hnone hopen)
    have hlast := elementBelow_normal hw.toKept hintact.toKept hfront
      (fun x hx => Option.some.inj (habove.symm.trans hx) ▸ hnone hopen) key
    rw [Store.follow_append] at hr
    have hr' : Cursor.elementBelow _ _ key = some r := hr
    rw [hr', hw.normal_operation hv hget hlabel] at hlast
    obtain ⟨q, hq, hvalue⟩ := sketch_eq_constant hintact.acyclic hlast
    have hfind := hexact.find?_iff.mpr (Pool.valueOf?_eq_some hvalue)
    refine ⟨v, q, hv, ?_, by rw [Workspace.constant.eq_def, hfind]⟩
    rw [Store.follow_append]
    exact hq
  · have hknown := Store.knownAt_some.mpr hw.root_known
    refine ⟨?_, (hpatched.alike r (hw.closed.follow hknown path r hr)).label?⟩
    exact (follow_open hw.toKept hintact.toKept hpatched hknown hsketch
      fun front _ _ hpath hfollow =>
        Store.follow_front hw.typed hfollow (hpath ▸ hr) (hnone hopen)).trans hr

/-- The script of the statement `!true + a`. -/
def openSum : Tree :=
  .node .script [.list [.node .expressionStatement [.node (.binaryExpression "+")
    [.node (.unaryExpression "!") [.node (.booleanLiteral true) []],
      .node (.identifierExpression "a") []]]]]

/-- The negation gives its place to the fragment of false, and the sum stays. -/
theorem folding_computes_values_openSum :
    openSum.isShaped = true ∧ openSum.hasOperators = true ∧ openSum.invalid? = none ∧
      ∃ n left q, (∀ fuel, n ≤ fuel →
        ((({} : Options).pass "fold" [.foldConstant]).process fuel
          (.ofStore (Store.empty.plant openSum).2) () (some (.cell 6))).workspace = left) ∧
        left.store.follow (some (.cell 6))
          [.field "statements", .index 0, .field "expression"] = some (.cell 3) ∧
        left.store.follow (some (.cell 6))
          [.field "statements", .index 0, .field "expression", .field "left"] = some q ∧
        left.constant (.boolean false) = (q, left) := by
  have hshaped : openSum.isShaped = true := by decide
  have hoperators : openSum.hasOperators = true := by decide
  have hvalid : openSum.invalid? = none := by cbv
  have hplant : Store.empty.plant openSum =
      (some (.cell 6), (Store.empty.plant openSum).2) := rfl
  have hrules : (({} : Options).pass "fold" [.foldConstant]).rules =
      [Simplification.foldConstant.rule] := rfl
  obtain ⟨n, left, hleft, hfolded, hkept⟩ :=
    folding_computes_values hshaped hoperators hvalid rfl hplant hrules rfl ()
  have hnegation : (Workspace.ofStore (Store.empty.plant openSum).2).store.Evaluates (.cell 1)
      (.boolean false) := .unary rfl (.literal rfl rfl) (by decide)
  have hsum : ¬ (Workspace.ofStore (Store.empty.plant openSum).2).store.ClosedConstant
      (.cell 3) := by
    rw [Store.closedConstant_iff]
    rintro ⟨v, hv⟩
    obtain ⟨a, b, x, y, -, hb, -, hy, -⟩ := (Store.evaluates_binary rfl).mp hv
    obtain rfl := Option.some.inj hb
    cases (Store.evaluates_label rfl (by simp) (by simp)).mp hy
  obtain ⟨v, q, hv, hq, hconstant⟩ := hfolded [.field "statements", .index 0, .field "expression"]
    (.field "left") (.cell 3) (.cell 1) rfl hsum rfl
    (Store.closedConstant_iff.mpr ⟨_, hnegation⟩) rfl
  obtain rfl := hnegation.unique hv
  exact ⟨hshaped, hoperators, hvalid, n, left, q, fun fuel hfuel => (hleft fuel hfuel).1,
    (hkept _ _ rfl hsum).1, hq, hconstant⟩

end ScriptSimplifier
