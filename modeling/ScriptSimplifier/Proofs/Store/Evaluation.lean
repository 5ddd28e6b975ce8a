import ScriptSimplifier.Proofs.Store.Constants

/-!
# Evaluating expressions

An expression without names has a value, which is computed from its literals upward (`Evaluates`).
The value that a workspace reads off an expression is a different thing: it comes from the pool for
a fragment, and from the literal or the negated literal otherwise.  The two agree as long as the
fragments are left alone, whatever was asked of the pool and whatever happened to all other elements
(`Pooled`).  The invariant is that every fragment is spelled by fragments and evaluates to its value
(`Valued`).
-/

namespace ScriptSimplifier

namespace Store

variable {s t : Store} {r : Ref} {u v : Value}

/-- The value of an expression: literals stand for themselves, and operations are evaluated on the
values of their operands. -/
inductive Evaluates (s : Store) : Ref → Value → Prop
  | literal {r : Ref} {label : Label} {kids : List (Option Ref)} {v : Value} :
      s.get r = .node label kids → label.value? = some v → Evaluates s r v
  | unary {r o : Ref} {operator : Text} {u v : Value} :
      s.get r = .node (.unaryExpression operator) [some o] → Evaluates s o u →
      evalUnary? operator u = some v → Evaluates s r v
  | binary {r a b : Ref} {operator : Text} {x y v : Value} :
      s.get r = .node (.binaryExpression operator) [some a, some b] → Evaluates s a x →
      Evaluates s b y → evalBinary? operator x y = some v → Evaluates s r v

theorem Evaluates.node (h : s.Evaluates r v) : ∃ label kids, s.get r = .node label kids := by
  cases h with
  | literal hget _ | unary hget _ _ | binary hget _ _ _ => exact ⟨_, _, hget⟩

/-- A closed constant expression: literals combined by operators on values. -/
inductive ClosedConstant (s : Store) : Ref → Prop
  | literal {r : Ref} {label : Label} {kids : List (Option Ref)} :
      s.get r = .node label kids → label.value?.isSome = true → ClosedConstant s r
  | unary {r o : Ref} {operator : Text} :
      s.get r = .node (.unaryExpression operator) [some o] → ClosedConstant s o →
      (UnaryOp.ofSpelling? operator).isSome = true → ClosedConstant s r
  | binary {r a b : Ref} {operator : Text} :
      s.get r = .node (.binaryExpression operator) [some a, some b] → ClosedConstant s a →
      ClosedConstant s b → (BinaryOp.ofSpelling? operator).isSome = true → ClosedConstant s r

/-- Operators on values have a value on all values, so exactly the closed constant expressions have
one. -/
theorem closedConstant_iff : s.ClosedConstant r ↔ ∃ v, s.Evaluates r v := by
  constructor
  · intro h
    induction h with
    | literal hget hvalue =>
      obtain ⟨v, hv⟩ := Option.isSome_iff_exists.mp hvalue
      exact ⟨v, .literal hget hv⟩
    | unary hget _ hop ih =>
      obtain ⟨u, hu⟩ := ih
      obtain ⟨op, hop⟩ := Option.isSome_iff_exists.mp hop
      -- an operator gives a value for any operand
      exact ⟨op.apply u, .unary hget hu (by rw [evalUnary?, hop]; rfl)⟩
    | binary hget _ _ hop iha ihb =>
      obtain ⟨x, hx⟩ := iha
      obtain ⟨y, hy⟩ := ihb
      obtain ⟨op, hop⟩ := Option.isSome_iff_exists.mp hop
      exact ⟨op.apply x y, .binary hget hx hy (by rw [evalBinary?, hop]; rfl)⟩
  · rintro ⟨v, h⟩
    induction h with
    | literal hget hvalue => exact .literal hget (by rw [hvalue]; rfl)
    | unary hget _ heval ih =>
      obtain ⟨op, hop, -⟩ := Option.map_eq_some_iff.mp heval
      exact .unary hget ih (by rw [hop]; rfl)
    | binary hget _ _ heval iha ihb =>
      obtain ⟨op, hop, -⟩ := Option.map_eq_some_iff.mp heval
      exact .binary hget iha ihb (by rw [hop]; rfl)

theorem evaluates_unary {operator : Text} {e : Option Ref}
    (hr : s.get r = .node (.unaryExpression operator) [e]) :
    s.Evaluates r v ↔ ∃ o u, e = some o ∧ s.Evaluates o u ∧ evalUnary? operator u = some v := by
  constructor
  · intro h
    cases h with
    | literal hget hvalue =>
      obtain ⟨rfl, -⟩ := Cell.node.inj (hr.symm.trans hget)
      simp [Label.value?] at hvalue
    | unary hget ho heval =>
      obtain ⟨hlabel, hkids⟩ := Cell.node.inj (hr.symm.trans hget)
      obtain rfl := Label.unaryExpression.inj hlabel
      exact ⟨_, _, (List.cons.inj hkids).1, ho, heval⟩
    | binary hget _ _ _ => simpa using hr.symm.trans hget
  · rintro ⟨o, u, rfl, ho, heval⟩
    exact .unary hr ho heval

theorem evaluates_binary {operator : Text} {e f : Option Ref}
    (hr : s.get r = .node (.binaryExpression operator) [e, f]) :
    s.Evaluates r v ↔ ∃ a b x y, e = some a ∧ f = some b ∧ s.Evaluates a x ∧ s.Evaluates b y ∧
      evalBinary? operator x y = some v := by
  constructor
  · intro h
    cases h with
    | literal hget hvalue =>
      obtain ⟨rfl, -⟩ := Cell.node.inj (hr.symm.trans hget)
      simp [Label.value?] at hvalue
    | unary hget _ _ => simpa using hr.symm.trans hget
    | binary hget ha hb heval =>
      obtain ⟨hlabel, hkids⟩ := Cell.node.inj (hr.symm.trans hget)
      obtain rfl := Label.binaryExpression.inj hlabel
      obtain ⟨hleft, hrest⟩ := List.cons.inj hkids
      exact ⟨_, _, _, _, hleft, (List.cons.inj hrest).1, ha, hb, heval⟩
  · rintro ⟨a, b, x, y, rfl, rfl, ha, hb, heval⟩
    exact .binary hr ha hb heval

/-- What is no operation has the value of its label. -/
theorem evaluates_label {label : Label} {kids : List (Option Ref)}
    (hr : s.get r = .node label kids) (hunary : ∀ operator, label ≠ .unaryExpression operator)
    (hbinary : ∀ operator, label ≠ .binaryExpression operator) :
    s.Evaluates r v ↔ label.value? = some v := by
  constructor
  · intro h
    cases h with
    | literal hget hvalue =>
      obtain ⟨rfl, -⟩ := Cell.node.inj (hr.symm.trans hget)
      exact hvalue
    | unary hget _ _ => exact absurd (Cell.node.inj (hr.symm.trans hget)).1 (hunary _)
    | binary hget _ _ _ => exact absurd (Cell.node.inj (hr.symm.trans hget)).1 (hbinary _)
  · exact .literal hr

/-- An expression has one value. -/
theorem Evaluates.unique (h : s.Evaluates r v) (h' : s.Evaluates r u) : u = v := by
  induction h generalizing u with
  | literal hget hvalue =>
    refine Option.some.inj (((evaluates_label hget ?_ ?_).mp h').symm.trans hvalue) <;>
      · rintro _ rfl
        simp [Label.value?] at hvalue
  | unary hget _ heval ih =>
    obtain ⟨o, x, ho, hx, heval'⟩ := (evaluates_unary hget).mp h'
    obtain rfl := Option.some.inj ho
    obtain rfl := ih hx
    exact Option.some.inj (heval'.symm.trans heval)
  | binary hget _ _ heval ihl ihr =>
    obtain ⟨a, b, x, y, ha, hb, hx, hy, heval'⟩ := (evaluates_binary hget).mp h'
    obtain rfl := Option.some.inj ha
    obtain rfl := Option.some.inj hb
    obtain rfl := ihl hx
    obtain rfl := ihr hy
    exact Option.some.inj (heval'.symm.trans heval)

/-- The value depends on nothing but the elements that the expression reaches. -/
theorem Evaluates.congr (h : s.Evaluates r v)
    (hget : ∀ c, s.Reaches r c → t.get c = s.get c) : t.Evaluates r v := by
  have hholds : ∀ {p c label kids}, s.get p = .node label kids → some c ∈ kids → s.Holds p c := by
    intro p c label kids hp hc
    rw [Holds, Store.below, hp]
    exact hc
  induction h with
  | literal hr hvalue => exact .literal ((hget _ .refl).trans hr) hvalue
  | unary hr _ heval ih =>
    have ho := hholds hr List.mem_cons_self
    exact .unary ((hget _ .refl).trans hr) (ih fun c hc => hget c (hc.head ho)) heval
  | binary hr _ _ heval ihl ihr =>
    have ha := hholds hr List.mem_cons_self
    have hb := hholds hr (List.mem_cons_of_mem _ List.mem_cons_self)
    exact .binary ((hget _ .refl).trans hr) (ihl fun c hc => hget c (hc.head ha))
      (ihr fun c hc => hget c (hc.head hb)) heval

end Store

namespace Workspace

variable {w w' : Workspace} {r : Ref} {u v : Value}

/-! ## Entering values -/

/-- The workspace is made from another one by entering values, each with a node that spells it. -/
inductive Enters (w : Workspace) : Workspace → Prop
  | refl : Enters w w
  | enter {w' : Workspace} {v : Value} {label : Label} {kids : List (Option Ref)} :
      Enters w w' → Spelling w'.pool.entries v label kids → Enters w (w'.enter v label kids).2

theorem Enters.literal (label : Label) (h : w.Enters w') (hlabel : label.value? = some v) :
    w.Enters (w'.enter v label []).2 :=
  .enter h (.literal hlabel)

theorem enters_literal (w : Workspace) (label : Label) (h : label.value? = some v) :
    w.Enters (w.literal v label).2 ∧
      (v, (w.literal v label).1) ∈ (w.literal v label).2.pool.entries := by
  rw [Workspace.literal]
  cases hfind : w.pool.find? v with
  | some r => exact ⟨.refl, Pool.find?_eq_some hfind⟩
  | none => exact ⟨.enter .refl (.literal h), w.mem_entries_enter v label []⟩

theorem enters_number (w : Workspace) (x : Double) :
    w.Enters (w.number x).2 ∧ (.number x, (w.number x).1) ∈ (w.number x).2.pool.entries := by
  rw [Workspace.number]
  split
  · obtain ⟨henters, hoperand⟩ := w.enters_literal (.numericLiteral x.neg) rfl
    have heval : evalUnary? (Text.ofString "-") (.number x.neg) = some (.number x) := by
      rw [evalUnary?_minus, neg_neg]
    exact ⟨.enter henters (.unary hoperand heval), mem_entries_enter _ _ _ _⟩
  · exact w.enters_literal _ rfl

/-- Asking for the fragment of a value enters values and gives a fragment of that value. -/
theorem enters_constant (w : Workspace) (v : Value) :
    w.Enters (w.constant v).2 ∧ (v, (w.constant v).1) ∈ (w.constant v).2.pool.entries := by
  rw [Workspace.constant.eq_def]
  cases hfind : w.pool.find? v with
  | some r => exact ⟨.refl, Pool.find?_eq_some hfind⟩
  | none =>
    cases v with
    | number x => exact w.enters_number x
    | string t => exact w.enters_literal _ rfl
    | boolean b => exact w.enters_literal _ rfl
    | null => exact w.enters_literal _ rfl
    | undefined =>
      obtain ⟨henters, hoperand⟩ := w.enters_literal (.numericLiteral (.zero false)) rfl
      have heval : evalUnary? (Text.ofString "void") (.number (.zero false)) = some .undefined := by
        decide
      exact ⟨.enter henters (.unary hoperand heval), mem_entries_enter _ _ _ _⟩

/-- The first pool enters its values one after the other. -/
theorem enters_ofStore (s : Store) : Enters ⟨s, .empty⟩ (ofStore s) := by
  refine .literal .nullLiteral ?_ rfl
  refine .literal (.booleanLiteral false) ?_ rfl
  refine .literal (.booleanLiteral true) ?_ rfl
  refine .enter ?_ (.unary (u := .number (.zero false)) (by simp [Pool.insert]) (by decide))
  refine .enter ?_ (.binary (l := .number (.ofNat 1)) (r := .number (.zero true))
    (by simp [Pool.insert]) (by simp [Pool.insert, Double.zero, Double.neg])
    (evalBinary?_one_zero true))
  refine .enter ?_ (.binary (l := .number (.ofNat 1)) (r := .number (.zero false))
    (by simp [Pool.insert]) (by simp [Pool.insert]) (evalBinary?_one_zero false))
  refine .enter ?_ (.binary (l := .number (.zero false)) (r := .number (.zero false))
    (by simp [Pool.insert]) (by simp [Pool.insert]) (by decide))
  refine .enter ?_ (.unary (u := .number (.zero false)) (by simp [Pool.insert])
    (evalUnary?_minus _))
  refine .literal (.numericLiteral (.ofNat 1)) ?_ rfl
  exact .literal (.numericLiteral (.zero false)) .refl rfl

/-! ## Valued workspaces -/

/-- Every fragment is spelled by fragments and evaluates to its value. -/
structure Valued (w : Workspace) : Prop where
  known : ∀ v r, (v, r) ∈ w.pool.entries → w.store.Known r
  spelled : ∀ v r, (v, r) ∈ w.pool.entries →
    ∃ label kids, w.store.get r = .node label kids ∧ Spelling w.pool.entries v label kids
  evaluates : ∀ v r, (v, r) ∈ w.pool.entries → w.store.Evaluates r v

/-- What a fragment reaches is a fragment. -/
theorem Valued.reaches (hw : w.Valued) (hr : ∃ v, (v, r) ∈ w.pool.entries) {c : Ref}
    (hc : w.store.Reaches r c) : ∃ u, (u, c) ∈ w.pool.entries := by
  induction hc with
  | refl => exact hr
  | @tail b c _ hholds ih =>
    obtain ⟨v, hv⟩ := ih
    obtain ⟨label, kids, hget, hspelling⟩ := hw.spelled v b hv
    rw [Store.Holds, Store.below, hget] at hholds
    exact hspelling.mem hholds

/-- Whatever happens to the other elements does not concern the fragments. -/
theorem Valued.change (hw : w.Valued) {t : Store}
    (hsize : w.store.cells.size ≤ t.cells.size)
    (hget : ∀ v r, (v, r) ∈ w.pool.entries → t.get r = w.store.get r) :
    Valued { w with store := t } := by
  refine ⟨fun v r hr => ?_, fun v r hr => ?_, fun v r hr => ?_⟩
  · have hknown := hw.known v r hr
    cases r with
    | emptyStatement | null => trivial
    | cell n => exact Nat.lt_of_lt_of_le hknown hsize
  · rw [hget v r hr]
    exact hw.spelled v r hr
  · refine (hw.evaluates v r hr).congr fun c hc => ?_
    obtain ⟨u, hu⟩ := hw.reaches ⟨v, hr⟩ hc
    exact hget u c hu

/-- A node with a list field is no fragment. -/
theorem Valued.isConstant_listField (hw : w.Valued) {kind : Kind}
    (hkind : w.store.kind? r = some kind) {name : String}
    (hfield : kind.isListField name = true) : w.pool.isConstant (some r) = false := by
  by_contra hconstant
  obtain ⟨v, hv⟩ := Pool.isConstant_iff.mp (by simpa using hconstant)
  obtain ⟨label, kids, hget, hspelling⟩ := hw.spelled v r hv
  obtain rfl : label.kind = kind := by simpa [Store.kind?_node hget] using hkind
  rw [hspelling.no_listField] at hfield
  cases hfield

/-- A node that spells a value with the entries of the pool evaluates to it. -/
theorem Valued.evaluates_spelling (hw : w.Valued) {label : Label} {kids : List (Option Ref)}
    (hget : w.store.get r = .node label kids) (h : Spelling w.pool.entries v label kids) :
    w.store.Evaluates r v := by
  cases h with
  | literal hvalue => exact .literal hget hvalue
  | unary ho heval => exact .unary hget (hw.evaluates _ _ ho) heval
  | binary ha hb heval => exact .binary hget (hw.evaluates _ _ ha) (hw.evaluates _ _ hb) heval

theorem add_spelling (w : Workspace) {label : Label} {kids : List (Option Ref)}
    (h : Spelling w.pool.entries v label kids) :
    w.store.Extends (w.add label kids).2.store ∧
      (w.add label kids).2.store.Known (w.add label kids).1 ∧
      (w.add label kids).2.store.get (w.add label kids).1 = .node label kids := by
  by_cases hown : label.IsOwn
  · rw [add_own w kids hown]
    exact ⟨w.store.extends_push _, w.store.next_known _, w.store.get_push_next _⟩
  · -- only null is a literal without a cell of its own
    rcases Label.shared_of_not_own hown with rfl | rfl
    · cases h with
      | literal hvalue => simp [Label.value?] at hvalue
    · cases h with
      | literal _ => exact ⟨.refl _, trivial, rfl⟩

theorem Valued.enter (hw : w.Valued) {label : Label} {kids : List (Option Ref)}
    (h : Spelling w.pool.entries v label kids) : (w.enter v label kids).2.Valued := by
  obtain ⟨hextends, hknown, hnew⟩ := w.add_spelling h
  have hgrown : Valued { w with store := (w.add label kids).2.store } :=
    hw.change hextends.size fun u r hr => hextends.get r (hw.known u r hr)
  have hold : ∀ x ∈ w.pool.entries, x ∈ (w.enter v label kids).2.pool.entries :=
    fun x hx => List.mem_append_left _ hx
  refine ⟨fun u r hr => ?_, fun u r hr => ?_, fun u r hr => ?_⟩ <;>
    rcases List.mem_append.mp hr with hr | hr
  · exact hgrown.known u r hr
  · obtain ⟨rfl, rfl⟩ := Prod.mk.inj (List.mem_singleton.mp hr)
    exact hknown
  · obtain ⟨label', kids', hget, hspelling⟩ := hgrown.spelled u r hr
    exact ⟨label', kids', hget, hspelling.mono hold⟩
  · obtain ⟨rfl, rfl⟩ := Prod.mk.inj (List.mem_singleton.mp hr)
    exact ⟨label, kids, hnew, h.mono hold⟩
  · exact hgrown.evaluates u r hr
  · obtain ⟨rfl, rfl⟩ := Prod.mk.inj (List.mem_singleton.mp hr)
    exact hgrown.evaluates_spelling hnew h

theorem Valued.enters (hw : w.Valued) (h : w.Enters w') : w'.Valued := by
  induction h with
  | refl => exact hw
  | enter _ hspelling ih => exact ih.enter hspelling

/-- What is not a fragment has a value as a literal or as a negated numeric literal. -/
theorem valueOf?_cases (hr : w.pool.valueOf? r = none) (h : w.valueOf? (some r) = some v) :
    (∃ label kids, w.store.get r = .node label kids ∧ label.value? = some v) ∨
      ∃ o x kids, w.store.get r = .node (.unaryExpression (Text.ofString "-")) [some o] ∧
        w.store.get o = .node (.numericLiteral x) kids ∧ v = .number x.neg := by
  simp only [Workspace.valueOf?, Option.bind_eq_bind, Option.bind_some, hr] at h
  split at h
  case h_2 _ hget | h_3 _ hget | h_4 _ hget | h_5 _ hget => exact .inl ⟨_, _, hget, h⟩
  case h_6 operator o _ hget =>
    split at h
    · next x kids ho =>
      split_ifs at h with hoperator
      exact .inr ⟨o, x, kids, hoperator ▸ hget, ho, (Option.some.inj h).symm⟩
    · cases h
  all_goals simp_all

/-- The value that is read off an expression is the one it evaluates to. -/
theorem Valued.valueOf? (hw : w.Valued) (h : w.valueOf? (some r) = some v) :
    w.store.Evaluates r v := by
  cases hvalue : w.pool.valueOf? r with
  | some u =>
    obtain rfl : u = v := by simpa [Workspace.valueOf?, hvalue] using h
    exact hw.evaluates u r (Pool.valueOf?_eq_some hvalue)
  | none =>
    rcases valueOf?_cases hvalue h with ⟨label, kids, hget, hlabel⟩ | ⟨o, x, kids, hget, ho, rfl⟩
    · exact .literal hget hlabel
    · exact .unary hget (.literal ho rfl) (evalUnary?_minus x)

/-- In a store without cycles it is enough that the fragments spell their values. -/
theorem Kept.valued {strict : Strictness} (hw : w.Kept strict) : w.Valued := by
  refine ⟨hw.known, hw.spelled, fun v r => ?_⟩
  induction r using hw.acyclic.induction generalizing v with
  | step r ih =>
    intro hr
    obtain ⟨label, kids, hget, hspelling⟩ := hw.spelled v r hr
    have hholds : ∀ c, some c ∈ kids → w.store.Holds r c := fun c hc => by
      rw [Store.Holds, Store.below, hget]
      exact hc
    cases hspelling with
    | literal hvalue => exact .literal hget hvalue
    | unary ho heval => exact .unary hget (ih _ (hholds _ (by simp)) _ ho) heval
    | binary ha hb heval =>
      exact .binary hget (ih _ (hholds _ (by simp)) _ ha) (ih _ (hholds _ (by simp)) _ hb) heval

/-! ## Pools in use -/

/-- A workspace whose pool was asked for values, in any order, while all elements except the
fragments may have changed in between. -/
inductive Pooled : Workspace → Prop
  | start (s : Store) : Pooled (ofStore s)
  | ask {w : Workspace} (v : Value) : Pooled w → Pooled (w.constant v).2
  | change {w : Workspace} (t : Store) : Pooled w → w.store.cells.size ≤ t.cells.size →
      (∀ v r, (v, r) ∈ w.pool.entries → t.get r = w.store.get r) →
      Pooled { w with store := t }

theorem Pooled.valued (h : w.Pooled) : w.Valued := by
  induction h with
  | start s =>
    have hempty : Valued ⟨s, .empty⟩ := by
      refine ⟨?_, ?_, ?_⟩ <;> simp [Pool.empty]
    exact hempty.enters (enters_ofStore s)
  | ask v _ ih => exact ih.enters (enters_constant _ v).1
  | change t _ hsize hget ih => exact ih.change hsize hget

/-- An entry of the pool is what is read off its fragment. -/
theorem Valued.valueOf?_entry (hw : w.Valued) (hr : (v, r) ∈ w.pool.entries) :
    w.valueOf? (some r) = some v := by
  obtain ⟨u, hu⟩ := Option.isSome_iff_exists.mp
    (show (w.pool.valueOf? r).isSome = true from Pool.isConstant_iff.mpr ⟨v, hr⟩)
  have hread : w.valueOf? (some r) = some u := by simp [Workspace.valueOf?, hu]
  rw [hread, (hw.evaluates v r hr).unique (hw.valueOf? hread)]

/-- Reading and evaluating agree.  In a workspace whose pool was asked for any values in any order,
a value that is read off an expression, a fragment or not, is the one value that the expression
evaluates to.  In particular every fragment evaluates to the value that it stands for, which is also
the one that is read off it, and there is a fragment for each value that is asked for. -/
theorem read_value_is_evaluated (hw : w.Pooled) :
    (∀ e v, w.valueOf? e = some v →
      ∃ r, e = some r ∧ w.store.Evaluates r v ∧ ∀ u, w.store.Evaluates r u → u = v) ∧
    (∀ v r, (v, r) ∈ w.pool.entries → w.valueOf? (some r) = some v ∧ w.store.Evaluates r v) ∧
    ∀ v, (w.constant v).2.valueOf? (some (w.constant v).1) = some v ∧
      (w.constant v).2.store.Evaluates (w.constant v).1 v := by
  have hvalued := hw.valued
  refine ⟨fun e v he => ?_, fun v r hr => ⟨hvalued.valueOf?_entry hr, hvalued.evaluates v r hr⟩,
    fun v => ?_⟩
  · cases e with
    | none => simp [Workspace.valueOf?] at he
    | some r =>
      have hvalue := hvalued.valueOf? he
      exact ⟨r, rfl, hvalue, fun u hu => hvalue.unique hu⟩
  · obtain ⟨henters, hentry⟩ := w.enters_constant v
    have hasked := hvalued.enters henters
    exact ⟨hasked.valueOf?_entry hentry, hasked.evaluates v _ hentry⟩

/-- A store holds the negation of 0, which is no fragment; the pool is asked for `undefined` and for
a string. -/
theorem read_value_is_evaluated_minus_zero :
    let w := (((ofStore ⟨#[.node (.numericLiteral (.zero false)) [],
      .node (.unaryExpression "-") [some (.cell 0)]]⟩).constant .undefined).2.constant
        (.string "two")).2
    w.Pooled ∧ w.valueOf? (some (.cell 1)) = some (.number (.zero true)) ∧
      w.store.Evaluates (.cell 1) (.number (.zero true)) := by
  intro w
  have hpooled : w.Pooled := .ask _ (.ask _ (.start _))
  have hread : w.valueOf? (some (.cell 1)) = some (.number (.zero true)) := by decide
  obtain ⟨r, hr, hvalue, -⟩ := (read_value_is_evaluated hpooled).1 _ _ hread
  obtain rfl := Option.some.inj hr
  exact ⟨hpooled, hread, hvalue⟩

end Workspace

end ScriptSimplifier
