import ScriptSimplifier.Proofs.Store.Growth

/-!
# Ways to declarations

A function declaration belongs to the script or function body from which it is reached without
entering another function body.  A *way* leads down from element to element and enters no node of
the kinds that bar it.  In addition, some statements may end the list in which they stand: a way
takes no item behind such a statement.

Only the ways to scripts, function bodies and declarations matter here, and what has none of these
in it is *barren*, like everything below a node that holds expressions (`Typed.barren`).  So an
element may lose and gain barren children without any effect on the ways (`SameWays.of_trade`).
-/

namespace ScriptSimplifier

namespace Kind

/-- The kinds of nodes to which ways matter. -/
def isScope : Kind → Bool
  | .script | .functionBody | .functionDeclaration => true
  | _ => false

/-- A kind of nodes that hold nothing but expressions. -/
def isPlain (k : Kind) : Bool := k.fields.all (·.accepts == .expression)

theorem isPlain_of_isExpression {k : Kind} (h : k.isExpression = true) : k.isPlain = true := by
  cases k <;> first | rfl | cases h

theorem not_scope_of_isPlain {k : Kind} (h : k.isPlain = true) : k.isScope = false := by
  cases k <;> first | rfl | exact absurd h (by decide)

end Kind

namespace Store

/-! ## Ways -/

/-- An element holds another one, and if it is a list, then no item before it ends the list. -/
inductive Leads (s : Store) (ends : Ref → Prop) (p c : Ref) : Prop
  | field {label : Label} {kids : List (Option Ref)} : s.get p = .node label kids → some c ∈ kids →
      Leads s ends p c
  | item {items : List (Option Ref)} {k : Nat} : s.get p = .list items →
      items[k]? = some (some c) → (∀ j q, j < k → items[j]? = some (some q) → ¬ ends q) →
      Leads s ends p c

/-- The ways down that enter no node of a barred kind. -/
def Way (s : Store) (ends : Ref → Prop) (barred : List Kind) : Ref → Ref → Prop :=
  Relation.ReflTransGen fun p c => s.Leads ends p c ∧ ∀ k ∈ barred, s.kind? c ≠ some k

/-- A node to which ways matter. -/
def IsScope (s : Store) (r : Ref) : Prop := ∃ k : Kind, s.kind? r = some k ∧ k.isScope = true

variable {s t u : Store} {ends ends' ends'' : Ref → Prop} {barred : List Kind} {a c p r x y : Ref}

theorem Leads.holds (h : s.Leads ends p c) : s.Holds p c := by
  cases h with
  | field hp hc => exact (holds_node_iff hp).mpr hc
  | item hp hc _ => exact (holds_list_iff hp).mpr (List.mem_of_getElem? hc)

/-- If nothing ends a list, an element leads to all that it holds. -/
theorem leads_iff_holds : s.Leads (fun _ => False) p c ↔ s.Holds p c := by
  refine ⟨Leads.holds, fun h => ?_⟩
  cases hp : s.get p with
  | node label kids => exact .field hp ((holds_node_iff hp).mp h)
  | list items =>
    obtain ⟨k, hk⟩ := List.mem_iff_getElem?.mp ((holds_list_iff hp).mp h)
    exact .item hp hk fun _ _ _ _ => id

theorem Way.reaches (h : s.Way ends barred a y) : s.Reaches a y := by
  induction h with
  | refl => exact .refl
  | tail _ hlast ih => exact .tail ih hlast.1.holds

/-- A scope was given out: what was not reads as an empty statement. -/
theorem IsScope.known (h : s.IsScope r) : s.Known r := by
  obtain ⟨k, hk, hscope⟩ := h
  by_contra hunknown
  obtain rfl : Kind.emptyStatement = k := by
    simpa [kind?, label?, get_unknown hunknown, Label.kind] using hk
  cases hscope

theorem not_scope_node {label : Label} {kids : List (Option Ref)} (hr : s.get r = .node label kids)
    (hlabel : label.kind.isScope = false) : ¬ s.IsScope r := by
  rintro ⟨k, hk, hscope⟩
  obtain rfl : label.kind = k := by simpa [kind?_node hr] using hk
  simp [hlabel] at hscope

theorem not_scope_list {items : List (Option Ref)} (hr : s.get r = .list items) :
    ¬ s.IsScope r := by
  rintro ⟨k, hk, -⟩
  simp [kind?_list hr] at hk

theorem IsScope.of_kind (h : s.IsScope r) (hkind : t.kind? r = s.kind? r) : t.IsScope r := by
  obtain ⟨k, hk, hscope⟩ := h
  exact ⟨k, hkind.trans hk, hscope⟩

/-- A way is taken over to another store and other ends of lists, if this can be done at each
element on it. -/
theorem Way.transfer (P : Ref → Prop)
    (hstep : ∀ p c, P p → s.Leads ends p c → s.Way ends barred c y →
      (∀ k ∈ barred, s.kind? c ≠ some k) →
      P c ∧ (t.Way ends' barred c y → t.Way ends' barred p y))
    (ha : P a) (h : s.Way ends barred a y) : t.Way ends' barred a y := by
  induction h using Relation.ReflTransGen.head_induction_on with
  | refl => exact .refl
  | head hfirst hrest ih =>
    obtain ⟨hc, hback⟩ := hstep _ _ ha hfirst.1 hrest hfirst.2
    exact hback (ih hc)

/-- A way stays if each element on it leads on as before. -/
theorem Way.stays (P : Ref → Prop)
    (hstep : ∀ p c, P p → s.Leads ends p c → s.Way ends barred c y →
      P c ∧ t.Leads ends' p c ∧ t.kind? c = s.kind? c)
    (ha : P a) (h : s.Way ends barred a y) : t.Way ends' barred a y := by
  refine h.transfer P (fun p c hp hleads hrest hbarred => ?_) ha
  obtain ⟨hc, hleads', hkind⟩ := hstep p c hp hleads hrest
  exact ⟨hc, .head ⟨hleads', fun k hk => hkind ▸ hbarred k hk⟩⟩

/-- Only function bodies bar ways to what belongs to a script or function body. -/
theorem not_barred (hbarred : barred ⊆ [Kind.functionBody])
    (hr : s.kind? r ≠ some .functionBody) : ∀ k ∈ barred, s.kind? r ≠ some k := by
  intro k hk
  obtain rfl := List.mem_singleton.mp (hbarred hk)
  exact hr

/-! ## Barren elements -/

/-- No way leads from an element to a scope. -/
def Barren (s : Store) (r : Ref) : Prop := ∀ y, s.Reaches r y → ¬ s.IsScope y

theorem Barren.no_way (h : s.Barren r) (hy : s.IsScope y) : ¬ s.Way ends barred r y :=
  fun hway => h y hway.reaches hy

theorem Barren.of_below (hr : ¬ s.IsScope r) (h : ∀ c, s.Holds r c → s.Barren c) : s.Barren r := by
  intro y hreach
  rcases Relation.ReflTransGen.cases_head hreach with rfl | ⟨c, hc, hrest⟩
  · exact hr
  · exact h c hc y hrest

/-- A node of a plain kind, or a list of expressions. -/
def IsPlain (s : Store) (r : Ref) : Prop :=
  (∃ k : Kind, s.kind? r = some k ∧ k.isPlain = true) ∨
    ∃ items, s.get r = .list items ∧ ∀ e ∈ items, s.isIn .expression e = true

theorem isPlain_of_expression (h : s.isIn .expression (some r) = true) : s.IsPlain r := by
  obtain ⟨r', label, kids, heq, hget, hexpression⟩ := isIn_iff.mp h
  obtain rfl := Option.some.inj heq
  exact .inl ⟨label.kind, kind?_node hget, Kind.isPlain_of_isExpression hexpression⟩

theorem IsPlain.not_scope (h : s.IsPlain r) : ¬ s.IsScope r := by
  rintro ⟨k, hk, hscope⟩
  rcases h with ⟨k', hk', hplain⟩ | ⟨items, hget, -⟩
  · obtain rfl := Option.some.inj (hk.symm.trans hk')
    simp [Kind.not_scope_of_isPlain hplain] at hscope
  · simp [kind?_list hget] at hk

variable {strict : Strictness}

/-- What is plain holds only what is plain. -/
theorem IsPlain.below (ht : s.Typed strict) (h : s.IsPlain p) (hc : s.Holds p c) : s.IsPlain c := by
  rcases h with ⟨k, hk, hplain⟩ | ⟨items, hget, hitems⟩
  · cases hget : s.get p with
    | list items => simp [kind?_list hget] at hk
    | node label kids =>
      obtain rfl : label.kind = k := by simpa [kind?_node hget] using hk
      obtain ⟨f, hf, hadmits⟩ :=
        (ht p label kids hget).exists_field ((holds_node_iff hget).mp hc)
      have haccepts : f.accepts = .expression := by
        simpa using List.all_eq_true.mp hplain f hf
      cases hlist : f.isList with
      | true =>
        obtain ⟨l, items, heq, hl, hitems⟩ := (admits_list hlist).mp hadmits
        obtain rfl := Option.some.inj heq
        exact .inr ⟨items, hl, by rwa [haccepts] at hitems⟩
      | false =>
        rcases (admits_single hlist).mp hadmits with ⟨hnone, -⟩ | hin
        · cases hnone
        · exact isPlain_of_expression (by rwa [haccepts] at hin)
  · exact isPlain_of_expression (hitems _ ((holds_list_iff hget).mp hc))

/-- What is plain is barren. -/
theorem Typed.barren (ht : s.Typed strict) (h : s.IsPlain r) : s.Barren r := by
  intro y hreach
  induction hreach using Relation.ReflTransGen.head_induction_on with
  | refl => exact h.not_scope
  | head hfirst _ ih => exact ih (h.below ht hfirst)

/-! ## The same ways in two stores -/

/-- From what one store knows, the same ways lead to scopes in another store, where other statements
may end lists. -/
structure SameWays (s : Store) (ends : Ref → Prop) (t : Store) (ends' : Ref → Prop) : Prop where
  size : s.cells.size ≤ t.cells.size
  label : ∀ r, s.Known r → t.label? r = s.label? r
  way : ∀ barred ⊆ [Kind.functionBody], ∀ a y, s.Known a → s.IsScope y →
    (t.Way ends' barred a y ↔ s.Way ends barred a y)

theorem SameWays.refl (s : Store) (ends : Ref → Prop) : s.SameWays ends s ends :=
  ⟨Nat.le_refl _, fun _ _ => rfl, fun _ _ _ _ _ _ => Iff.rfl⟩

theorem kind?_of_label (h : t.label? r = s.label? r) : t.kind? r = s.kind? r := by
  rw [kind?, kind?, h]

theorem SameWays.known (h : s.SameWays ends t ends') (hr : s.Known r) : t.Known r := by
  cases r with
  | emptyStatement | null => trivial
  | cell n => exact Nat.lt_of_lt_of_le hr h.size

theorem SameWays.trans (h : s.SameWays ends t ends') (h' : t.SameWays ends' u ends'') :
    s.SameWays ends u ends'' := by
  refine ⟨Nat.le_trans h.size h'.size, fun r hr => ?_, fun barred hbarred a y ha hy => ?_⟩
  · rw [h'.label r (h.known hr), h.label r hr]
  · have hy' : t.IsScope y := hy.of_kind (kind?_of_label (h.label y hy.known))
    rw [h'.way barred hbarred a y (h.known ha) hy', h.way barred hbarred a y ha hy]

/-- An element may lose and gain what is barren. -/
theorem SameWays.of_trade (hclosed : s.Closed) (hsize : s.cells.size ≤ t.cells.size)
    (hlabel : ∀ r, s.Known r → t.label? r = s.label? r)
    (hbelow : ∀ r, s.Known r → r ≠ x → t.below r = s.below r)
    (hlost : ∀ c, s.Holds x c → t.Holds x c ∨ s.Barren c)
    (hgained : ∀ c, t.Holds x c → s.Holds x c ∨ t.Barren c) :
    s.SameWays (fun _ => False) t (fun _ => False) := by
  have hkind : ∀ r, s.Known r → t.kind? r = s.kind? r := fun r hr => kind?_of_label (hlabel r hr)
  refine ⟨hsize, hlabel, fun barred _ a y ha hy => ⟨fun h => ?_, fun h => ?_⟩⟩
  · have hy' : t.IsScope y := hy.of_kind (hkind y hy.known)
    refine h.stays s.Known (fun p c hp hleads hrest => ?_) ha
    have hholds : s.Holds p c := by
      by_cases hpx : p = x
      · subst hpx
        exact (hgained c hleads.holds).resolve_right fun hbarren => hbarren.no_way hy' hrest
      · rw [Holds, ← hbelow p hp hpx]
        exact hleads.holds
    have hc := hclosed p c hholds
    exact ⟨hc, leads_iff_holds.mpr hholds, (hkind c hc).symm⟩
  · refine h.stays s.Known (fun p c hp hleads hrest => ?_) ha
    have hholds : t.Holds p c := by
      by_cases hpx : p = x
      · subst hpx
        exact (hlost c hleads.holds).resolve_right fun hbarren => hbarren.no_way hy hrest
      · rw [Holds, hbelow p hp hpx]
        exact hleads.holds
    have hc := hclosed p c hleads.holds
    exact ⟨hc, leads_iff_holds.mpr hholds, hkind c hc⟩

end Store

end ScriptSimplifier
