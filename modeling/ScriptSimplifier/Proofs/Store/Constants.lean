import ScriptSimplifier.Proofs.Store.Growth
import ScriptSimplifier.Value.Operator

/-!
# Canonical fragments

Every fragment of the pool spells the value that it stands for: it is a literal of that value, or an
operation on other fragments that evaluates to it.  A workspace in which this holds and whose store
is acyclic, closed and typed is called *coherent*, and *kept* if the pool has an entry for null as
well, as it has from the beginning.  Asking for a fragment keeps the workspace (`Kept.constant`).
-/

namespace ScriptSimplifier

/-- The value of a literal. -/
def Label.value? : Label → Option Value
  | .numericLiteral x => some (.number x)
  | .stringLiteral t => some (.string t)
  | .booleanLiteral b => some (.boolean b)
  | .nullLiteral => some .null
  | _ => none

theorem Label.fields_of_value {label : Label} {v : Value} (h : label.value? = some v) :
    label.fields = [] := by
  cases label <;> first | rfl | simp [value?] at h

/-- One, by its code. -/
theorem Double.ofNat_one : Double.ofNat 1 = .finite false ⟨0x3FF0000000000000, by decide⟩ := by
  decide +kernel

/-- One divided by a zero is infinite and has the sign of the zero. -/
theorem evalBinary?_one_zero (negative : Bool) :
    evalBinary? (Text.ofString "/") (.number (.ofNat 1)) (.number (.zero negative)) =
      some (.number (.inf negative)) := by
  have hop : BinaryOp.ofSpelling? (Text.ofString "/") = some .div := by decide
  simp [evalBinary?, hop, BinaryOp.apply, Value.toNumber, Double.ofNat_one, Double.zero,
    Double.div]

/-- A unary operation with a value has an operator. -/
theorem hasOperator_of_evalUnary {operator : Text} {u v : Value}
    (h : evalUnary? operator u = some v) : (Label.unaryExpression operator).hasOperator = true := by
  obtain ⟨op, hop, _⟩ := Option.map_eq_some_iff.mp h
  have hspelling : op.spelling = operator := by simpa using List.find?_some hop
  subst hspelling
  cases op <;> decide

namespace Workspace

/-! ## Spelling -/

/-- A node with this label and these places spells a value, given the fragments of other values. -/
inductive Spelling (entries : List (Value × Ref)) : Value → Label → List (Option Ref) → Prop
  | literal {v : Value} {label : Label} : label.value? = some v → Spelling entries v label []
  | unary {u v : Value} {operator : Text} {o : Ref} : (u, o) ∈ entries →
      evalUnary? operator u = some v → Spelling entries v (.unaryExpression operator) [some o]
  | binary {l r v : Value} {operator : Text} {a b : Ref} : (l, a) ∈ entries → (r, b) ∈ entries →
      evalBinary? operator l r = some v →
      Spelling entries v (.binaryExpression operator) [some a, some b]

theorem Spelling.mono {entries entries' : List (Value × Ref)} {v : Value} {label : Label}
    {kids : List (Option Ref)} (h : Spelling entries v label kids)
    (hsub : ∀ x ∈ entries, x ∈ entries') : Spelling entries' v label kids := by
  cases h with
  | literal hv => exact .literal hv
  | unary ho hv => exact .unary (hsub _ ho) hv
  | binary ha hb hv => exact .binary (hsub _ ha) (hsub _ hb) hv

/-- What spells a value is an expression. -/
theorem Spelling.isExpression {entries : List (Value × Ref)} {v : Value} {label : Label}
    {kids : List (Option Ref)} (h : Spelling entries v label kids) :
    label.kind.isExpression = true := by
  cases h with
  | literal hv => cases label <;> first | rfl | simp [Label.value?] at hv
  | unary _ _ => rfl
  | binary _ _ _ => rfl

/-- What spells a value has no list field. -/
theorem Spelling.no_listField {entries : List (Value × Ref)} {v : Value} {label : Label}
    {kids : List (Option Ref)} (h : Spelling entries v label kids) (name : String) :
    label.kind.isListField name = false := by
  have hfields : ∀ f ∈ label.kind.fields, f.isList = false := by
    cases h with
    | literal hv => simp [show label.kind.fields = [] from Label.fields_of_value hv]
    | unary _ _ => simp [Kind.fields, Label.kind, Field.single]
    | binary _ _ _ => simp [Kind.fields, Label.kind, Field.single]
  rw [Kind.isListField]
  cases hfield : label.kind.field? name with
  | none => rfl
  | some f => exact hfields f (List.mem_of_find?_eq_some hfield)

/-- The operands of a fragment are fragments. -/
theorem Spelling.mem {entries : List (Value × Ref)} {v : Value} {label : Label}
    {kids : List (Option Ref)} (h : Spelling entries v label kids) {c : Ref}
    (hc : some c ∈ kids) : ∃ u, (u, c) ∈ entries := by
  cases h with
  | literal _ => simp at hc
  | unary ho _ =>
    obtain rfl : c = _ := by simpa using hc
    exact ⟨_, ho⟩
  | binary ha hb _ =>
    rcases (by simpa using hc : c = _ ∨ c = _) with rfl | rfl
    · exact ⟨_, ha⟩
    · exact ⟨_, hb⟩

/-! ## Coherent workspaces -/

/-- The store is a store of trees, and every fragment spells its value. -/
structure Coherent (strict : Strictness) (w : Workspace) : Prop extends
    Store.Orderly strict w.store where
  known : ∀ v r, (v, r) ∈ w.pool.entries → w.store.Known r
  spelled : ∀ v r, (v, r) ∈ w.pool.entries →
    ∃ label kids, w.store.get r = .node label kids ∧ Spelling w.pool.entries v label kids

/-- A coherent workspace whose pool knows the fragment of null. -/
structure Kept (strict : Strictness) (w : Workspace) : Prop extends w.Coherent strict where
  null : (.null, .null) ∈ w.pool.entries

variable {strict : Strictness} {w : Workspace}

theorem Coherent.isIn_constant (hw : w.Coherent strict) {v : Value} {r : Ref}
    (h : (v, r) ∈ w.pool.entries) : w.store.isIn .expression (some r) = true := by
  obtain ⟨label, kids, hr, hspelling⟩ := hw.spelled v r h
  exact Store.isIn_iff.mpr ⟨r, label, kids, rfl, hr, hspelling.isExpression⟩

/-- What a fragment holds is a fragment. -/
theorem Coherent.constant_holds (hw : w.Coherent strict) {p c : Ref}
    (hp : w.pool.isConstant (some p) = true) (hc : w.store.Holds p c) :
    w.pool.isConstant (some c) = true := by
  obtain ⟨v, hv⟩ := Pool.isConstant_iff.mp hp
  obtain ⟨label, kids, hget, hspelling⟩ := hw.spelled v p hv
  rw [Store.Holds, Store.below, hget] at hc
  exact Pool.isConstant_iff.mpr (hspelling.mem hc)

theorem Coherent.shares_holds (hw : w.Coherent strict) {p c : Ref} (hp : w.shares p = true)
    (hc : w.store.Holds p c) : w.shares c = true := by
  simp only [shares, Bool.or_eq_true, beq_iff_eq] at hp ⊢
  rcases hp with rfl | hp
  · obtain ⟨n, hn, _⟩ := hc.cell
    cases hn
  · exact .inr (hw.constant_holds hp hc)

theorem Coherent.spelling_typed (hw : w.Coherent strict) {v : Value} {label : Label}
    {kids : List (Option Ref)} (h : Spelling w.pool.entries v label kids) :
    w.store.NodeTyped strict label kids := by
  have hadmits : ∀ {name u c}, (u, c) ∈ w.pool.entries →
      w.store.admits strict (.single name .expression) (some c) = true := by
    intro name u c hc
    exact (Store.admits_single rfl).mpr (.inr (hw.isIn_constant hc))
  cases h with
  | literal hv =>
    refine ⟨fun _ => ?_, by rw [Label.fields_of_value hv]; rfl, by simp⟩
    cases label <;> first | rfl | simp [Label.value?] at hv
  | unary ho hv =>
    refine ⟨fun _ => hasOperator_of_evalUnary hv, rfl, ?_⟩
    intro p hp
    obtain rfl : p = (Field.single "operand" .expression, some _) := by
      simpa [Label.fields, Label.kind, Kind.fields] using hp
    exact hadmits ho
  | binary ha hb _ =>
    refine ⟨fun _ => rfl, rfl, ?_⟩
    intro p hp
    rcases (by simpa [Label.fields, Label.kind, Kind.fields] using hp :
      p = (Field.single "left" .expression, some _) ∨
        p = (Field.single "right" .expression, some _)) with rfl | rfl
    · exact hadmits ha
    · exact hadmits hb

/-- A label for the pool: only null has a node that is not a cell of its own. -/
theorem Spelling.isOwn {entries : List (Value × Ref)} {v : Value} {label : Label}
    {kids : List (Option Ref)} (h : Spelling entries v label kids) (hv : v ≠ .null) :
    label.IsOwn := by
  cases h with
  | literal hlabel =>
    constructor
    · rintro rfl
      simp [Label.value?] at hlabel
    · rintro rfl
      exact hv (Option.some.inj hlabel).symm
  | unary _ _ => exact ⟨by simp, by simp⟩
  | binary _ _ _ => exact ⟨by simp, by simp⟩

/-! ## Adding nodes -/

/-- The workspace with one more cell. -/
def push (w : Workspace) (c : Cell) : Workspace := { w with store := w.store.push c }

theorem add_own (w : Workspace) {label : Label} (kids : List (Option Ref)) (h : label.IsOwn) :
    w.add label kids = (w.store.next, w.push (.node label kids)) := by
  simp only [add, Store.add_node _ kids h]
  rfl

theorem grows_push (w : Workspace) (c : Cell) : w.Grows (w.push c) :=
  ⟨w.store.extends_push c, [], by simp [push]⟩

theorem Coherent.push (hw : w.Coherent strict) {label : Label} {kids : List (Option Ref)}
    (htyped : w.store.NodeTyped strict label kids)
    (hknown : ∀ e ∈ kids, w.store.KnownAt e) : (w.push (.node label kids)).Coherent strict := by
  have htyped' : ∀ label' kids', Cell.node label kids = .node label' kids' →
      w.store.NodeTyped strict label' kids' := by
    intro label' kids' heq
    obtain ⟨rfl, rfl⟩ := Cell.node.inj heq
    exact htyped
  refine ⟨hw.toOrderly.push hknown htyped', ?_, ?_⟩
  · intro v r hr
    exact (hw.known v r hr).push _
  · intro v r hr
    obtain ⟨label', kids', hget, hspelling⟩ := hw.spelled v r hr
    exact ⟨label', kids', (Store.get_push _ (hw.known v r hr)).trans hget, hspelling⟩

theorem Kept.push (hw : w.Kept strict) {label : Label} {kids : List (Option Ref)}
    (htyped : w.store.NodeTyped strict label kids)
    (hknown : ∀ e ∈ kids, w.store.KnownAt e) : (w.push (.node label kids)).Kept strict :=
  ⟨hw.toCoherent.push htyped hknown, hw.null⟩

/-! ## Entering values -/

@[simp] theorem entries_enter (w : Workspace) (v : Value) (label : Label)
    (kids : List (Option Ref)) : (w.enter v label kids).2.pool.entries =
      w.pool.entries ++ [(v, (w.enter v label kids).1)] :=
  rfl

theorem mem_entries_enter (w : Workspace) (v : Value) (label : Label) (kids : List (Option Ref)) :
    (v, (w.enter v label kids).1) ∈ (w.enter v label kids).2.pool.entries := by
  simp

theorem Coherent.enter (hw : w.Coherent strict) (v : Value) (label : Label)
    (kids : List (Option Ref)) (h : Spelling w.pool.entries v label kids) (hv : v ≠ .null) :
    w.Grows (w.enter v label kids).2 ∧ (w.enter v label kids).2.Coherent strict ∧
      (v, (w.enter v label kids).1) ∈ (w.enter v label kids).2.pool.entries := by
  have hkids : ∀ e ∈ kids, w.store.KnownAt e := by
    rintro e he c rfl
    obtain ⟨u, hu⟩ := h.mem he
    exact hw.known u c hu
  have hpush := hw.push (hw.spelling_typed h) hkids
  have henter : w.enter v label kids =
      (w.store.next, ⟨w.store.push (.node label kids), w.pool.insert v w.store.next⟩) := by
    simp only [Workspace.enter, add_own w kids (h.isOwn hv)]
    rfl
  have hold : ∀ x ∈ w.pool.entries, x ∈ (w.pool.insert v w.store.next).entries :=
    fun x hx => List.mem_append_left _ hx
  rw [henter]
  refine ⟨⟨w.store.extends_push _, [(v, w.store.next)], rfl, ?_⟩, ?_, ?_⟩
  · intro x hx
    obtain rfl : x = (v, w.store.next) := by simpa using hx
    exact w.store.next_unknown
  · refine ⟨hpush.toOrderly, ?_, ?_⟩
    · intro u r hr
      rcases List.mem_append.mp hr with hr | hr
      · exact hpush.known u r hr
      · obtain ⟨rfl, rfl⟩ : u = v ∧ r = w.store.next := by simpa using hr
        exact w.store.next_known _
    · intro u r hr
      rcases List.mem_append.mp hr with hr | hr
      · obtain ⟨label', kids', hget, hspelling⟩ := hpush.spelled u r hr
        exact ⟨label', kids', hget, hspelling.mono hold⟩
      · obtain ⟨rfl, rfl⟩ : u = v ∧ r = w.store.next := by simpa using hr
        exact ⟨label, kids, w.store.get_push_next _, h.mono hold⟩
  · exact List.mem_append_right _ List.mem_cons_self

theorem Kept.enter (hw : w.Kept strict) (v : Value) (label : Label) (kids : List (Option Ref))
    (h : Spelling w.pool.entries v label kids) (hv : v ≠ .null) :
    w.Grows (w.enter v label kids).2 ∧ (w.enter v label kids).2.Kept strict ∧
      (v, (w.enter v label kids).1) ∈ (w.enter v label kids).2.pool.entries := by
  obtain ⟨hgrows, hcoherent, hmem⟩ := hw.toCoherent.enter v label kids h hv
  exact ⟨hgrows, ⟨hcoherent, hgrows.mem_entries hw.null⟩, hmem⟩

theorem Kept.literal (hw : w.Kept strict) (v : Value) (label : Label)
    (hlabel : label.value? = some v) :
    w.Grows (w.literal v label).2 ∧ (w.literal v label).2.Kept strict ∧
      (v, (w.literal v label).1) ∈ (w.literal v label).2.pool.entries := by
  rw [Workspace.literal]
  cases hfind : w.pool.find? v with
  | some r => exact ⟨.refl w, hw, Pool.find?_eq_some hfind⟩
  | none =>
    refine hw.enter v label [] (.literal hlabel) ?_
    rintro rfl
    exact Pool.find?_eq_none hfind _ hw.null

theorem neg_neg (x : Double) : x.neg.neg = x := by
  cases x <;> simp [Double.neg]

theorem evalUnary?_minus (x : Double) :
    evalUnary? (Text.ofString "-") (.number x) = some (.number x.neg) := by
  have hop : UnaryOp.ofSpelling? (Text.ofString "-") = some .minus := by decide
  simp [evalUnary?, hop, UnaryOp.apply, Value.toNumber]

theorem Kept.number (hw : w.Kept strict) (x : Double) :
    w.Grows (w.number x).2 ∧ (w.number x).2.Kept strict ∧
      (.number x, (w.number x).1) ∈ (w.number x).2.pool.entries := by
  rw [Workspace.number]
  split
  · obtain ⟨hgrows, hkept, hmem⟩ :=
      hw.literal (.number x.neg) (.numericLiteral x.neg) rfl
    have heval : evalUnary? (Text.ofString "-") (.number x.neg) = some (.number x) := by
      rw [evalUnary?_minus, neg_neg]
    obtain ⟨hgrows', hkept', hmem'⟩ := hkept.enter _ _ _ (.unary hmem heval) (by simp)
    exact ⟨hgrows.trans hgrows', hkept', hmem'⟩
  · exact hw.literal _ _ rfl

/-- Asking for the fragment of a value keeps the workspace and gives a fragment of that value. -/
theorem Kept.constant (hw : w.Kept strict) (v : Value) :
    w.Grows (w.constant v).2 ∧ (w.constant v).2.Kept strict ∧
      (v, (w.constant v).1) ∈ (w.constant v).2.pool.entries := by
  rw [Workspace.constant.eq_def]
  cases hfind : w.pool.find? v with
  | some r => exact ⟨.refl w, hw, Pool.find?_eq_some hfind⟩
  | none =>
    cases v with
    | number x => exact hw.number x
    | string t => exact hw.literal _ _ rfl
    | boolean b => exact hw.literal _ _ rfl
    | null => exact absurd hw.null (Pool.find?_eq_none hfind _)
    | undefined =>
      obtain ⟨hgrows, hkept, hmem⟩ :=
        hw.literal (.number (.zero false)) (.numericLiteral (.zero false)) rfl
      have heval : evalUnary? (Text.ofString "void") (.number (.zero false)) = some .undefined := by
        decide
      obtain ⟨hgrows', hkept', hmem'⟩ := hkept.enter _ _ _ (.unary hmem heval) (by simp)
      exact ⟨hgrows.trans hgrows', hkept', hmem'⟩

/-! ## The first pool -/

/-- The shared node for null may become a fragment. -/
theorem Coherent.insert_null (hw : w.Coherent strict) :
    Kept strict { w with pool := w.pool.insert .null .null } := by
  have hold : ∀ x ∈ w.pool.entries, x ∈ (w.pool.insert .null .null).entries :=
    fun x hx => List.mem_append_left _ hx
  refine ⟨⟨hw.toOrderly, ?_, ?_⟩, List.mem_append_right _ List.mem_cons_self⟩
  · intro v r hr
    rcases List.mem_append.mp hr with hr | hr
    · exact hw.known v r hr
    · obtain ⟨-, rfl⟩ : v = .null ∧ r = .null := by simpa using hr
      trivial
  · intro v r hr
    rcases List.mem_append.mp hr with hr | hr
    · obtain ⟨label, kids, hget, hspelling⟩ := hw.spelled v r hr
      exact ⟨label, kids, hget, hspelling.mono hold⟩
    · obtain ⟨rfl, rfl⟩ : v = .null ∧ r = .null := by simpa using hr
      exact ⟨.nullLiteral, [], rfl, .literal rfl⟩

/-- A store of trees with its first pool: of what was known, only null is a fragment. -/
theorem kept_ofStore {s : Store} (hs : s.Orderly strict) :
    (ofStore s).Kept strict ∧ s.Extends (ofStore s).store ∧
      ∀ r, s.Known r → ((ofStore s).pool.isConstant (some r) = true ↔ r = .null) := by
  have hw : Coherent strict ⟨s, .empty⟩ := ⟨hs, by simp [Pool.empty], by simp [Pool.empty]⟩
  obtain ⟨g0, c0, zero⟩ :=
    hw.enter (.number (.zero false)) (.numericLiteral (.zero false)) [] (.literal rfl) (by simp)
  obtain ⟨g1, c1, one⟩ :=
    c0.enter (.number (.ofNat 1)) (.numericLiteral (.ofNat 1)) [] (.literal rfl) (by simp)
  have zero1 := g1.mem_entries zero
  obtain ⟨g2, c2, minusZero⟩ := c1.enter (.number (Double.zero false).neg)
    (.unaryExpression (Text.ofString "-")) _ (.unary zero1 (by decide)) (by simp)
  have zero2 := g2.mem_entries zero1
  have one2 := g2.mem_entries one
  obtain ⟨g3, c3, -⟩ := c2.enter (.number .nan) (.binaryExpression (Text.ofString "/")) _
    (.binary zero2 zero2 (by decide)) (by simp)
  have zero3 := g3.mem_entries zero2
  have one3 := g3.mem_entries one2
  obtain ⟨g4, c4, -⟩ := c3.enter (.number (.inf false)) (.binaryExpression (Text.ofString "/")) _
    (.binary one3 zero3 (evalBinary?_one_zero false)) (by simp)
  obtain ⟨g5, c5, -⟩ := c4.enter (.number (.inf true)) (.binaryExpression (Text.ofString "/")) _
    (.binary (g4.mem_entries one3) (g4.mem_entries (g3.mem_entries minusZero))
      (evalBinary?_one_zero true)) (by simp)
  obtain ⟨g6, c6, -⟩ := c5.enter .undefined (.unaryExpression (Text.ofString "void")) _
    (.unary (g5.mem_entries (g4.mem_entries zero3)) (by decide)) (by simp)
  obtain ⟨g7, c7, -⟩ := c6.enter (.boolean true) (.booleanLiteral true) [] (.literal rfl) (by simp)
  obtain ⟨g8, c8, -⟩ :=
    c7.enter (.boolean false) (.booleanLiteral false) [] (.literal rfl) (by simp)
  have grows := g0.trans (g1.trans (g2.trans (g3.trans (g4.trans (g5.trans (g6.trans
    (g7.trans g8)))))))
  -- the last entry is the shared node for null, which is not new
  revert c8 grows
  generalize hlast : (Workspace.enter _ (.boolean false) _ _).2 = last
  intro c8 grows
  have hofStore : ofStore s = { last with pool := last.pool.insert .null .null } := by
    rw [← hlast]
    rfl
  obtain ⟨more, hmore, hnew⟩ := grows.pool
  refine ⟨hofStore ▸ c8.insert_null, hofStore ▸ grows.store, fun r hr => ?_⟩
  rw [hofStore, Pool.isConstant_iff]
  constructor
  · rintro ⟨v, hv⟩
    rcases List.mem_append.mp hv with hv | hv
    · rw [hmore] at hv
      exact absurd hr (hnew (v, r) (by simpa [Pool.empty] using hv))
    · obtain ⟨-, rfl⟩ : v = .null ∧ r = .null := by simpa using hv
      rfl
  · rintro rfl
    exact ⟨.null, List.mem_append_right _ List.mem_cons_self⟩

end Workspace

end ScriptSimplifier
