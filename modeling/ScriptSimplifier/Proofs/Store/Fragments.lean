import Mathlib.Data.List.Dedup
import ScriptSimplifier.Proofs.Store.Constants
import ScriptSimplifier.Proofs.Store.Planting

/-!
# The fragments of a pool

A pool has one fragment for each of its values, and the tree of the fragment is the spelling of the
value (`Value.spelled`).  Different values are spelled differently, so fragments and values
determine each other.  `Exact` is the invariant: it holds of the first pool and whatever is asked of
it afterwards (`Exact.constant`).
-/

namespace ScriptSimplifier

/-! ## Spelling -/

namespace Value

/-- A numeric literal. -/
def numeral (x : Double) : Tree := .node (.numericLiteral x) []

/-- The tree that stands for a value: a literal if there is one, and otherwise an operation. -/
def spelled : Value → Tree
  | .undefined => .node (.unaryExpression "void") [numeral (.zero false)]
  | .null => .node .nullLiteral []
  | .boolean b => .node (.booleanLiteral b) []
  | .string t => .node (.stringLiteral t) []
  | .number .nan =>
    .node (.binaryExpression "/") [numeral (.zero false), numeral (.zero false)]
  | .number (.inf false) =>
    .node (.binaryExpression "/") [numeral (.ofNat 1), numeral (.zero false)]
  | .number (.inf true) =>
    .node (.binaryExpression "/")
      [numeral (.ofNat 1), .node (.unaryExpression "-") [numeral (.zero false)]]
  | .number (.finite true code) => .node (.unaryExpression "-") [numeral (.finite false code)]
  | .number (.finite false code) => numeral (.finite false code)

/-- The values that a pool has from the beginning. -/
def basic : List Value :=
  [.number (.zero false), .number (.ofNat 1), .number (.zero true), .number .nan,
   .number (.inf false), .number (.inf true), .undefined, .boolean true, .boolean false, .null]

/-- The values that a pool needs for a value: a negative number is spelled by its opposite. -/
def needed : Value → List Value
  | .number (.finite true code) => [.number (.finite false code), .number (.finite true code)]
  | v => [v]

/-- Different values are spelled differently. -/
theorem spelled_injective {u v : Value} (h : u.spelled = v.spelled) : u = v := by
  have hvoid : Text.ofString "void" ≠ Text.ofString "-" := by decide
  have hone : Double.ofNat 1 ≠ .zero false := by simp [Double.ofNat_one, Double.zero]
  rcases u with _ | _ | a | (_ | (_ | _) | ⟨(_ | _), m⟩) | s <;>
    rcases v with _ | _ | b | (_ | (_ | _) | ⟨(_ | _), n⟩) | t <;>
    simp_all [spelled, numeral, hvoid.symm, hone.symm]

theorem basic_nodup : basic.Nodup := by decide +kernel

end Value

namespace Workspace

variable {strict : Strictness} {w : Workspace} {s : Store}

/-- The values of a pool are different, and every fragment has the spelling of its value as its
tree. -/
structure Spells (w : Workspace) : Prop where
  values : (w.pool.entries.map Prod.fst).Nodup
  tree : ∀ v r, (v, r) ∈ w.pool.entries → w.store.tree (some r) = v.spelled

/-- A pool that spells its values and has those it has from the beginning. -/
structure Exact (w : Workspace) : Prop extends w.Spells where
  basic : ∀ v ∈ Value.basic, ∃ r, (v, r) ∈ w.pool.entries

/-! ## The first pool -/

theorem entries_ofStore (s : Store) : (ofStore s).pool.entries =
    Value.basic.zip (((List.range 9).map fun i => Ref.cell (s.cells.size + i)) ++ [.null]) := by
  simp [ofStore, enter, add, Store.add, Pool.insert, Pool.empty, Value.basic, Double.zero,
    Double.neg, List.range_succ]

/-- The cells that a store gets for its first pool, after those with the given number. -/
def firstCells (n : Nat) : List Cell :=
  let cell (i : Nat) : Option Ref := some (.cell (n + i))
  [.node (.numericLiteral (.zero false)) [], .node (.numericLiteral (.ofNat 1)) [],
   .node (.unaryExpression "-") [cell 0], .node (.binaryExpression "/") [cell 0, cell 0],
   .node (.binaryExpression "/") [cell 1, cell 0], .node (.binaryExpression "/") [cell 1, cell 2],
   .node (.unaryExpression "void") [cell 0], .node (.booleanLiteral true) [],
   .node (.booleanLiteral false) []]

theorem cells_ofStore (s : Store) :
    (ofStore s).store.cells.toList = s.cells.toList ++ firstCells s.cells.size := by
  simp [ofStore, enter, add, Store.add, Pool.insert, Pool.empty, Double.zero, Double.neg,
    firstCells]

theorem get_ofStore (s : Store) {i : Nat} {c : Cell} (h : (firstCells s.cells.size)[i]? = some c) :
    (ofStore s).store.get (.cell (s.cells.size + i)) = c := by
  rw [Store.get, ← Array.getElem?_toList, cells_ofStore, List.getElem?_append_right (by simp)]
  simp [h]

theorem exact_ofStore (hs : s.Orderly strict) : (ofStore s).Exact := by
  have hac := (kept_ofStore hs).1.acyclic
  have hzero : (ofStore s).store.tree (some (.cell s.cells.size)) =
      Value.numeral (.zero false) := hac.tree_node (get_ofStore s (i := 0) rfl)
  have hone : (ofStore s).store.tree (some (.cell (s.cells.size + 1))) =
      Value.numeral (.ofNat 1) := hac.tree_node (get_ofStore s (i := 1) rfl)
  have hminus := hac.tree_node (get_ofStore s (i := 2) rfl)
  have hnan := hac.tree_node (get_ofStore s (i := 3) rfl)
  have hinf := hac.tree_node (get_ofStore s (i := 4) rfl)
  have hninf := hac.tree_node (get_ofStore s (i := 5) rfl)
  have hvoid := hac.tree_node (get_ofStore s (i := 6) rfl)
  have htrue := hac.tree_node (get_ofStore s (i := 7) rfl)
  have hfalse := hac.tree_node (get_ofStore s (i := 8) rfl)
  have hnull := hac.tree_node (ofStore s).store.get_null
  have hspelled : Value.spelled (.number (.ofNat 1)) = Value.numeral (.ofNat 1) := by
    rw [Double.ofNat_one]
    rfl
  simp only [List.map_cons, List.map_nil, Nat.add_zero, hzero, hone] at hminus hnan hinf hninf hvoid
  rw [hminus] at hninf
  refine ⟨⟨?_, ?_⟩, ?_⟩
  · rw [entries_ofStore]
    exact Value.basic_nodup
  · intro v r h
    rw [entries_ofStore] at h
    simp only [Value.basic, List.range_succ, List.range_zero] at h
    simp at h
    rcases h with ⟨rfl, rfl⟩ | ⟨rfl, rfl⟩ | ⟨rfl, rfl⟩ | ⟨rfl, rfl⟩ | ⟨rfl, rfl⟩ | ⟨rfl, rfl⟩ |
      ⟨rfl, rfl⟩ | ⟨rfl, rfl⟩ | ⟨rfl, rfl⟩ | ⟨rfl, rfl⟩
    · exact hzero
    · exact hone.trans hspelled.symm
    · exact hminus
    · exact hnan
    · exact hinf
    · exact hninf
    · exact hvoid
    · exact htrue
    · exact hfalse
    · exact hnull
  · intro v hv
    have hmem : v ∈ ((ofStore s).pool.entries).map Prod.fst := by
      rw [entries_ofStore]
      exact hv
    obtain ⟨⟨_, r⟩, hr, rfl⟩ := List.mem_map.mp hmem
    exact ⟨r, hr⟩

/-! ## Entering values -/

/-- What grows in an exact way stays exact. -/
theorem Exact.grow {w' : Workspace} (hx : w.Exact) (hw : w.Kept strict) (hgrows : w.Grows w')
    (hkept : w'.Kept strict) (hpool : w'.pool = w.pool) : w'.Exact := by
  refine ⟨⟨hpool ▸ hx.values, fun v r h => ?_⟩, fun v hv => hpool ▸ hx.basic v hv⟩
  rw [hpool] at h
  have hknown : w.store.KnownAt (some r) := Store.knownAt_some.mpr (hw.known v r h)
  rw [hgrows.store.tree hw.acyclic hw.closed hkept.acyclic hknown]
  exact hx.tree v r h

theorem Exact.enter (hx : w.Exact) (hw : w.Kept strict) {v : Value} {label : Label}
    {kids : List (Option Ref)} (h : Spelling w.pool.entries v label kids)
    (hnew : w.pool.find? v = none)
    (htree : .node label (kids.map w.store.tree) = v.spelled) :
    (w.enter v label kids).2.Exact := by
  have hnull : v ≠ .null := by
    rintro rfl
    exact Pool.find?_eq_none hnew _ hw.null
  obtain ⟨hgrows, hkept, -⟩ := hw.enter v label kids h hnull
  have hkids : ∀ e ∈ kids, w.store.KnownAt e := by
    rintro e he c rfl
    obtain ⟨u, hu⟩ := h.mem he
    exact hw.known u c hu
  have hget : (w.enter v label kids).2.store.get (w.enter v label kids).1 = .node label kids := by
    simp only [Workspace.enter, add_own w kids (h.isOwn hnull)]
    exact w.store.get_push_next _
  have hgrown : ∀ e, w.store.KnownAt e →
      (w.enter v label kids).2.store.tree e = w.store.tree e :=
    fun e he => hgrows.store.tree hw.acyclic hw.closed hkept.acyclic he
  refine ⟨⟨?_, ?_⟩, ?_⟩
  · -- no value has two fragments
    rw [entries_enter, List.map_append, List.nodup_append]
    refine ⟨hx.values, List.nodup_singleton _, ?_⟩
    rintro u hu u' hu' rfl
    obtain ⟨⟨_, r⟩, hr, rfl⟩ := List.mem_map.mp hu
    obtain rfl := List.mem_singleton.mp hu'
    exact Pool.find?_eq_none hnew r hr
  · intro u r hr
    rw [entries_enter, List.mem_append, List.mem_singleton, Prod.mk.injEq] at hr
    rcases hr with hr | ⟨rfl, rfl⟩
    · rw [hgrown _ (Store.knownAt_some.mpr (hw.known u r hr))]
      exact hx.tree u r hr
    · -- the new fragment has the tree that spells its value
      rw [hkept.acyclic.tree_node hget, ← htree]
      congr 1
      exact List.map_congr_left fun e he => hgrown e (hkids e he)
  · intro u hu
    obtain ⟨r, hr⟩ := hx.basic u hu
    exact ⟨r, hgrows.mem_entries hr⟩

/-- The values of a pool. -/
def values (w : Workspace) : List Value := w.pool.entries.map Prod.fst

theorem mem_values {v : Value} : v ∈ w.values ↔ ∃ r, (v, r) ∈ w.pool.entries := by
  simp [values]

theorem find?_eq_none_iff {v : Value} : w.pool.find? v = none ↔ v ∉ w.values := by
  rw [mem_values]
  constructor
  · rintro h ⟨r, hr⟩
    exact Pool.find?_eq_none h r hr
  · intro h
    cases hfind : w.pool.find? v with
    | none => rfl
    | some r => exact absurd ⟨r, Pool.find?_eq_some hfind⟩ h

theorem Exact.literal (hx : w.Exact) (hw : w.Kept strict) {v : Value} {label : Label}
    (hlabel : label.value? = some v) (hspelled : .node label [] = v.spelled) :
    (w.literal v label).2.Exact ∧ ∀ u, u ∈ (w.literal v label).2.values ↔ u ∈ w.values ∨ u = v := by
  rw [Workspace.literal]
  cases hfind : w.pool.find? v with
  | some r =>
    refine ⟨hx, fun u => ⟨.inl, ?_⟩⟩
    rintro (hu | rfl)
    · exact hu
    · exact mem_values.mpr ⟨r, Pool.find?_eq_some hfind⟩
  | none =>
    refine ⟨hx.enter hw (.literal hlabel) hfind hspelled, fun u => ?_⟩
    simp [values]

/-- An operation on a literal is entered together with the literal. -/
theorem Exact.operation (hx : w.Exact) (hw : w.Kept strict) {u v : Value} {label : Label}
    {operator : Text} (hlabel : label.value? = some u) (hliteral : .node label [] = u.spelled)
    (heval : evalUnary? operator u = some v)
    (hspelled : .node (.unaryExpression operator) [u.spelled] = v.spelled) (huv : u ≠ v)
    (hnew : w.pool.find? v = none) :
    ((w.literal u label).2.enter v (.unaryExpression operator)
        [some (w.literal u label).1]).2.Exact ∧
      ∀ x, x ∈ ((w.literal u label).2.enter v (.unaryExpression operator)
        [some (w.literal u label).1]).2.values ↔ x ∈ w.values ∨ x ∈ [u, v] := by
  obtain ⟨hexact, hvalues⟩ := hx.literal hw hlabel hliteral
  obtain ⟨-, hkept, hmem⟩ := hw.literal u label hlabel
  have hnew' : (w.literal u label).2.pool.find? v = none := by
    rw [find?_eq_none_iff, hvalues]
    rintro (hv | rfl)
    · exact find?_eq_none_iff.mp hnew hv
    · exact huv rfl
  have htree : .node (.unaryExpression operator)
      ([some (w.literal u label).1].map (w.literal u label).2.store.tree) = v.spelled := by
    rw [List.map_cons, List.map_nil, hexact.tree _ _ hmem, hspelled]
  refine ⟨hexact.enter hkept (.unary hmem heval) hnew' htree, fun x => ?_⟩
  have hmap : ((w.literal u label).2.enter v (.unaryExpression operator)
      [some (w.literal u label).1]).2.values = (w.literal u label).2.values ++ [v] := by
    simp [values]
  rw [hmap, List.mem_append, hvalues, or_assoc]
  simp

/-- The pool has what the spelling of a value needs together with the value. -/
theorem Exact.needed (hx : w.Exact) (hw : w.Kept strict) {u v : Value} (hv : v ∈ w.values)
    (hu : u ∈ v.needed) : u ∈ w.values := by
  obtain ⟨r, hr⟩ := mem_values.mp hv
  rcases v with _ | _ | _ | (_ | _ | ⟨(_ | _), code⟩) | _
  case number.finite.true =>
    rcases (by simpa [Value.needed] using hu : u = .number (.finite false code) ∨ u = _) with
      rfl | rfl
    · -- the fragment of a negative number is an operation on the fragment of its opposite
      have htree := hx.tree _ _ hr
      obtain ⟨label, kids, hget, hspelling⟩ := hw.spelled _ _ hr
      rw [hw.acyclic.tree_node hget] at htree
      obtain ⟨rfl, hkids⟩ := Tree.node.inj htree
      cases hspelling with
      | literal hvalue => simp [Label.value?] at hvalue
      | unary ho _ =>
        have hoperand : _ = (Value.number (.finite false code)).spelled :=
          (hx.tree _ _ ho).symm.trans (List.cons.inj hkids).1
        exact Value.spelled_injective hoperand ▸ mem_values.mpr ⟨_, ho⟩
    · exact hv
  all_goals
    obtain rfl : u = _ := by simpa [Value.needed] using hu
    exact hv

/-- Asking for the fragment of a value enters what the value needs. -/
theorem Exact.constant (hx : w.Exact) (hw : w.Kept strict) (v : Value) :
    (w.constant v).2.Exact ∧
      ∀ u, u ∈ (w.constant v).2.values ↔ u ∈ w.values ∨ u ∈ v.needed := by
  rw [Workspace.constant.eq_def]
  cases hfind : w.pool.find? v with
  | some r =>
    have hv : v ∈ w.values := mem_values.mpr ⟨r, Pool.find?_eq_some hfind⟩
    exact ⟨hx, fun u => ⟨.inl, fun h => h.elim id (hx.needed hw hv)⟩⟩
  | none =>
    have hbasic : v ∉ Value.basic :=
      fun hv => find?_eq_none_iff.mp hfind (mem_values.mpr (hx.basic v hv))
    cases v with
    | undefined | null => exact absurd (by decide) hbasic
    | string _ | boolean _ =>
      simpa [Value.needed] using hx.literal hw (by rfl) (by rfl)
    | number x =>
      cases x with
      | nan => exact absurd (by decide +kernel) hbasic
      | inf negative => cases negative <;> exact absurd (by decide +kernel) hbasic
      | finite negative code =>
        cases negative with
        | false =>
          simpa [Workspace.number, Double.isNegative, Value.needed]
            using hx.literal hw (by rfl) (by rfl)
        | true =>
          exact hx.operation hw rfl rfl (evalUnary?_minus (.finite false code)) rfl
            (by simp [Double.neg]) hfind

/-! ## Fragments and values determine each other -/

theorem Exact.find?_iff (hx : w.Exact) {v : Value} {r : Ref} :
    w.pool.find? v = some r ↔ (v, r) ∈ w.pool.entries := by
  refine ⟨Pool.find?_eq_some, fun hr => ?_⟩
  cases hfind : w.pool.find? v with
  | none => exact absurd hr (Pool.find?_eq_none hfind r)
  | some r' =>
    have heq := List.inj_on_of_nodup_map hx.values (Pool.find?_eq_some hfind) hr rfl
    rw [(Prod.mk.inj heq).2]

theorem Exact.valueOf?_iff (hx : w.Exact) {v : Value} {r : Ref} :
    w.pool.valueOf? r = some v ↔ (v, r) ∈ w.pool.entries := by
  refine ⟨Pool.valueOf?_eq_some, fun hr => ?_⟩
  obtain ⟨u, hu⟩ := Option.isSome_iff_exists.mp
    (show (w.pool.valueOf? r).isSome = true from Pool.isConstant_iff.mpr ⟨v, hr⟩)
  have htrees := (hx.tree u r (Pool.valueOf?_eq_some hu)).symm.trans (hx.tree v r hr)
  rw [hu, Value.spelled_injective htrees]

/-- The value that is read off a fragment is the one it was made for. -/
theorem Exact.valueOf?_some (hx : w.Exact) {v : Value} {r : Ref} (h : (v, r) ∈ w.pool.entries) :
    w.valueOf? (some r) = some v := by
  simp [Workspace.valueOf?, hx.valueOf?_iff.mpr h]

/-- What a fragment reaches is a fragment. -/
theorem Coherent.constant_reaches (hw : w.Coherent strict) {p c : Ref}
    (hp : w.pool.isConstant (some p) = true) (hc : w.store.Reaches p c) :
    w.pool.isConstant (some c) = true := by
  induction hc with
  | refl => exact hp
  | tail _ hholds ih => exact hw.constant_holds ih hholds

/-! ## Asking again and again -/

/-- The workspace after the fragments of some values were asked for, in order. -/
def ask (w : Workspace) (vs : List Value) : Workspace :=
  vs.foldl (fun w v => (w.constant v).2) w

/-- Asking only enters what the values need. -/
theorem Exact.ask (hx : w.Exact) (hw : w.Kept strict) (vs : List Value) :
    (w.ask vs).Exact ∧ (w.ask vs).Kept strict ∧ w.Grows (w.ask vs) ∧
      ∀ u, u ∈ (w.ask vs).values ↔ u ∈ w.values ∨ u ∈ vs.flatMap Value.needed := by
  induction vs generalizing w with
  | nil => exact ⟨hx, hw, .refl w, fun u => by simp [Workspace.ask]⟩
  | cons v vs ih =>
    obtain ⟨hexact, hvalues⟩ := hx.constant hw v
    obtain ⟨hgrows, hkept, -⟩ := hw.constant v
    obtain ⟨hexact', hkept', hgrows', hvalues'⟩ := ih hexact hkept
    refine ⟨hexact', hkept', hgrows.trans hgrows', fun u => ?_⟩
    rw [List.flatMap_cons, List.mem_append, ← or_assoc, ← hvalues u]
    exact hvalues' u

theorem values_ofStore (s : Store) : (ofStore s).values = Value.basic := by
  rw [values, entries_ofStore]
  rfl

/-- The values of a pool after some were asked for. -/
theorem values_ask (hs : s.Orderly strict) (vs : List Value) :
    ((ofStore s).ask vs).values.Perm (Value.basic ++ vs.flatMap Value.needed).dedup := by
  obtain ⟨hexact, -, -, hvalues⟩ := (exact_ofStore hs).ask (kept_ofStore hs).1 vs
  refine (List.perm_ext_iff_of_nodup hexact.values (List.nodup_dedup _)).mpr fun u => ?_
  rw [List.mem_dedup, List.mem_append, ← values_ofStore s]
  exact hvalues u

end Workspace

/-- Whether a 64-bit pattern stands for no number. -/
def Double.isNanPattern (bits : UInt64) : Bool := 0x7FF0000000000000 < bits.toNat % signBit

theorem Double.ofBits_cases (b : UInt64) :
    (∃ h, ofBits b = .finite (decide (signBit ≤ b.toNat)) ⟨b.toNat % signBit, h⟩) ∨
      (b.toNat % signBit = 0x7FF0000000000000 ∧ ofBits b = .inf (decide (signBit ≤ b.toNat))) ∨
      (0x7FF0000000000000 < b.toNat % signBit ∧ ofBits b = .nan) := by
  rcases Nat.lt_trichotomy (b.toNat % signBit) 0x7FF0000000000000 with h | h | h
  · exact .inl ⟨h, dif_pos h⟩
  · exact .inr (.inl ⟨h, (dif_neg (by omega)).trans (if_pos h)⟩)
  · exact .inr (.inr ⟨h, (dif_neg (by omega)).trans (if_neg (by omega))⟩)

/-- Patterns stand for the same number if they are equal or both stand for none. -/
theorem Double.ofBits_eq_iff (b c : UInt64) :
    ofBits b = ofBits c ↔ b = c ∨ isNanPattern b = true ∧ isNanPattern c = true := by
  have hb := b.toNat_lt
  have hc := c.toNat_lt
  rw [← UInt64.toNat_inj]
  rcases ofBits_cases b with ⟨hb', h⟩ | ⟨hb', h⟩ | ⟨hb', h⟩ <;>
    rcases ofBits_cases c with ⟨hc', h'⟩ | ⟨hc', h'⟩ | ⟨hc', h'⟩ <;>
    simp only [h, h', isNanPattern, finite.injEq, inf.injEq, reduceCtorEq, Fin.mk.injEq,
      decide_eq_decide, decide_eq_true_eq, false_iff, true_iff] <;>
    unfold signBit at * <;> omega

/-- Values and fragments of a pool determine each other.  Whatever was asked of it before and in
between, a pool gives the same fragment for `v` and later for `u` only if they are the same value.
The fragment keeps its value, the two look-ups undo each other, the pool has exactly the values it
had at first and those needed for what was asked, and all that a fragment reaches is a fragment.
There is one node for null, and numbers are the same if their patterns are or both stand for
none. -/
theorem constants_one_to_one {strict : Strictness} {s : Store} (hs : s.Orderly strict)
    (before : List Value) (v : Value) (between : List Value) (u : Value) :
    let first := ((Workspace.ofStore s).ask before).constant v
    let later := first.2.ask between
    let second := later.constant u
    let known := Value.basic ++ (before ++ v :: between).flatMap Value.needed
    (first.1 = second.1 ↔ v = u) ∧
      later.pool.isConstant (some first.1) = true ∧ later.valueOf? (some first.1) = some v ∧
      (∀ x r, later.pool.find? x = some r ↔ later.pool.valueOf? r = some x) ∧
      (∀ x, (later.pool.find? x).isSome = true ↔ x ∈ known) ∧
      later.pool.size = known.dedup.length ∧
      (∀ p c, later.pool.isConstant (some p) = true → later.store.Reaches p c →
        later.pool.isConstant (some c) = true) ∧
      (later.constant .null).1 = .null ∧
      (∀ kids, (later.add .nullLiteral kids).1 = .null) ∧
      ∀ b c : UInt64, Value.number (.ofBits b) = Value.number (.ofBits c) ↔
        b = c ∨ Double.isNanPattern b = true ∧ Double.isNanPattern c = true := by
  intro first later second known
  have hlater : later = (Workspace.ofStore s).ask (before ++ v :: between) := by
    simp [later, first, Workspace.ask]
  obtain ⟨hexact, hkept, -, -⟩ :=
    (Workspace.exact_ofStore hs).ask (Workspace.kept_ofStore hs).1 before
  obtain ⟨hexact₁, -⟩ := hexact.constant hkept v
  obtain ⟨-, hkept₁, hfirst⟩ := hkept.constant v
  obtain ⟨hexact₂, hkept₂, hgrows, -⟩ := hexact₁.ask hkept₁ between
  obtain ⟨hexact₃, -⟩ := hexact₂.constant hkept₂ u
  obtain ⟨hgrows', -, hsecond⟩ := hkept₂.constant u
  have hstill : (v, first.1) ∈ later.pool.entries := hgrows.mem_entries hfirst
  have hperm := Workspace.values_ask hs (before ++ v :: between)
  rw [← hlater] at hperm
  refine ⟨⟨fun h => ?_, ?_⟩, Pool.isConstant_iff.mpr ⟨v, hstill⟩, hexact₂.valueOf?_some hstill,
    fun x r => hexact₂.find?_iff.trans hexact₂.valueOf?_iff.symm, fun x => ?_, ?_,
    fun p c hp hc => hkept₂.constant_reaches hp hc, ?_, fun kids => rfl, fun b c => ?_⟩
  · have hread := hexact₃.valueOf?_some (hgrows'.mem_entries hstill)
    rw [h, hexact₃.valueOf?_some hsecond] at hread
    exact (Option.some.inj hread).symm
  · rintro rfl
    have hfound := hexact₃.find?_iff.mpr (hgrows'.mem_entries hstill)
    rw [hexact₃.find?_iff.mpr hsecond] at hfound
    exact (Option.some.inj hfound).symm
  · rw [← List.mem_dedup, ← hperm.mem_iff, Workspace.mem_values, Option.isSome_iff_exists]
    exact exists_congr fun r => hexact₂.find?_iff
  · rw [← hperm.length_eq, Workspace.values, List.length_map, Pool.size]
  · rw [Workspace.constant, hexact₂.find?_iff.mpr hkept₂.null]
  · rw [Value.number.injEq, Double.ofBits_eq_iff]

/-- The pool of a store without elements is asked for 2, then for its opposite and a string, and
then for 2 again. -/
theorem constants_one_to_one_opposite :
    Store.empty.Orderly .schema ∧
      (((Workspace.ofStore .empty).constant (.number (.ofBits 0x4000000000000000))).1 =
        ((((Workspace.ofStore .empty).constant (.number (.ofBits 0x4000000000000000))).2.ask
          [.number (.ofBits 0xC000000000000000), .string "two"]).constant
            (.number (.ofBits 0x4000000000000000))).1) :=
  ⟨Store.orderly_empty,
    (constants_one_to_one (Store.orderly_empty : Store.empty.Orderly .schema) []
      (.number (.ofBits 0x4000000000000000)) [.number (.ofBits 0xC000000000000000), .string "two"]
      (.number (.ofBits 0x4000000000000000))).1.mpr rfl⟩

end ScriptSimplifier
