import ScriptSimplifier.Proofs.Edits
import ScriptSimplifier.Proofs.Store.Writing

/-!
# Reading and changing the fields of a node

The schema says which fields a kind has and what they hold.  Each kind reads and writes the members
of its record in its own way, and what it does agrees with the schema (`Store.fields_agree`): the
fields are all that a node holds, a change is refused exactly if the schema does not allow it, and
one that goes through is seen in the field that was changed and nowhere else.  All of this needs
nothing of the store but that the node is a record of its kind.
-/

namespace ScriptSimplifier

/-- The fault for an element of a type that a field of a kind cannot hold. -/
def Field.misfit (f : Field) (kind : Kind) (typeName : Text) : ChildFault :=
  match f.accepts, f.isList with
  | .block, false => .needsBlock
  | .functionBody, false => .needsFunctionBody
  | _, _ => .cannotHold kind f.name typeName

/-- The conversion for a field fails with the fault of that field. -/
theorem Conversion.Suits.fault_eq {c : Conversion} {f : Field} (h : c.Suits f) (kind : Kind)
    (typeName : Text) : c.fault kind f.name typeName = f.misfit kind typeName := by
  -- lists, blocks and function bodies tell apart the conversions whose faults differ
  have hlist := h none
  have hblock := h (some .block)
  have hbody := h (some .functionBody)
  obtain ⟨name, isList, optional, accepts⟩ := f
  cases c <;> cases isList <;> cases accepts <;>
    simp_all [Conversion.passes, Conversion.fault, Field.takes, Field.misfit, Category.accepts,
      Kind.isStatement, Kind.isExpression]

namespace Store

variable {s t : Store} {n : Ref} {label : Label} {kids : List (Option Ref)} {f : Field} {i : Nat}
  {name : String} {e : Element} {fault : ChildFault}

/-! ## What a field takes -/

/-- What may be put into a field: nothing, into a field for a list any list, and into a field for
one child a node of the field's category. -/
inductive Takes (s : Store) (f : Field) : Element → Prop
  | nothing : Takes s f .nothing
  | list {x : Ref} {items : List (Option Ref)} : f.isList = true → s.get x = .list items →
      Takes s f (.ref x)
  | node {x : Ref} {label : Label} {children : List (Option Ref)} : f.isList = false →
      s.get x = .node label children → f.accepts.accepts label.kind = true → Takes s f (.ref x)

theorem takes_ref {x : Ref} : s.Takes f (.ref x) ↔ f.takes (s.kind? x) = true := by
  constructor
  · rintro (_ | ⟨hf, hx⟩ | ⟨hf, hx, h⟩)
    · simp [Field.takes, hf, kind?, label?, hx]
    · simp [Field.takes, hf, kind?, label?, hx, h]
  · intro h
    cases hf : f.isList <;> cases hx : s.get x <;> simp [Field.takes, hf, kind?, label?, hx] at h
    case false.node => exact .node hf hx h
    case true.list => exact .list hf hx

/-- The type of what is to be put into a field. -/
def elementType (s : Store) : Element → Text
  | .nothing => "<nil>"
  | .nilList => "*ast.List"
  | .ref x => s.typeName x

/-- Why an element cannot be put under a name into a node of a kind: there is no such field, or the
field does not take the element. -/
inductive Refuses (s : Store) (kind : Kind) (name : String) (e : Element) : ChildFault → Prop
  | noField : kind.field? name = none → Refuses s kind name e (.noField kind name)
  | misfit {f : Field} : kind.field? name = some f → ¬ s.Takes f e →
      Refuses s kind name e (f.misfit kind (s.elementType e))

/-- A conversion for a field fails exactly on what the field does not take. -/
theorem convert_error_iff {kind : Kind} {c : Conversion} (hc : c.Suits f) :
    s.convert kind f.name c e = .error fault ↔
      ¬ s.Takes f e ∧ f.misfit kind (s.elementType e) = fault := by
  cases e with
  | nothing =>
    have htakes : s.Takes f .nothing := .nothing
    cases c <;> simp [convert, htakes]
  | nilList =>
    have htakes : ¬ s.Takes f .nilList := fun h => by cases h
    simp [convert, htakes, hc.fault_eq, elementType]
  | ref x =>
    rw [convert, hc, takes_ref]
    split
    · simp_all
    · simp_all [hc.fault_eq, elementType]

/-! ## Reading -/

/-- Read field by field, a node gives everything that it holds. -/
theorem child_all (hn : s.get n = .node label kids)
    (hlength : kids.length = label.kind.members.length) :
    (label.fields.map fun f => s.child n f.name) = s.below n := by
  rw [below_node hn]
  have hfields : label.fields.length = kids.length := by
    rw [hlength, Kind.length_members]
    rfl
  refine List.ext_getElem (by rw [List.length_map, hfields]) fun i hi hi' => ?_
  rw [List.getElem_map, child_field hn (List.getElem?_eq_getElem _), List.getElem?_eq_getElem hi',
    Option.join_some]

/-- There is no child under a name that is no field. -/
theorem child_no_field (hn : s.get n = .node label kids) (hname : label.kind.field? name = none) :
    s.child n name = none := by
  rw [child_node hn, Kind.reads?_unknown hname, Option.bind_none]

/-! ## Changing -/

/-- A field of a node after an element, or nothing, was put there: the field holds what was put
there, where nothing in a list field is a new empty list, and the attributes of the node, its other
fields and all other elements are as before. -/
structure Received (s : Store) (n : Ref) (label : Label) (f : Field) (e : Element) (t : Store) :
    Prop where
  put : ∀ x, e = .ref x → t.child n f.name = some x
  emptied : e = .nothing → f.isList = false → t.child n f.name = none
  renewed : e = .nothing → f.isList = true →
    ∃ l, t.child n f.name = some l ∧ t.get l = .list [] ∧ ¬ s.Known l
  node : ∃ kids, t.get n = .node label kids ∧ kids.length = label.kind.members.length
  others : ∀ name, name ≠ f.name → t.child n name = s.child n name
  elsewhere : ∀ r, s.Known r → r ≠ n → t.get r = s.get r

/-- What is read after something was put into the place of a field. -/
theorem child_refill (hn : s.get n = .node label kids)
    (hlength : kids.length = label.kind.members.length)
    (hknown : ∃ m, n = .cell m ∧ m < s.cells.size)
    (hf : label.fields[i]? = some f) (held : Option Ref) :
    (s.refill n (kids.set i held)).child n f.name = held ∧
      (∃ kids', (s.refill n (kids.set i held)).get n = .node label kids' ∧
        kids'.length = label.kind.members.length) ∧
      (∀ other, other ≠ f.name →
        (s.refill n (kids.set i held)).child n other = s.child n other) ∧
      ∀ r, r ≠ n → (s.refill n (kids.set i held)).get r = s.get r := by
  have hget : (s.refill n (kids.set i held)).get n = .node label (kids.set i held) := by
    rw [get_refill_self _ hknown, hn]
    rfl
  have hlt : i < kids.length := by
    rw [hlength, Kind.length_members]
    exact (List.getElem?_eq_some_iff.mp hf).1
  refine ⟨?_, ⟨_, hget, by rw [List.length_set, hlength]⟩, fun other hother => ?_,
    fun r hr => get_refill_ne _ hr⟩
  · rw [child_field hget hf, List.getElem?_set_self hlt, Option.join_some]
  · rw [child_node hget, child_node hn]
    cases hread : label.kind.reads? other with
    | none => rfl
    | some m =>
      -- another name is that of a field at another position
      obtain ⟨g, rfl, hg⟩ := Kind.position_of_reads? hread
      have hne : i ≠ label.kind.members.idxOf m := by
        rintro rfl
        exact hother (congrArg Field.name (Option.some.inj (hg.symm.trans hf)))
      rw [Option.bind_some, Option.bind_some, List.getElem?_set_ne hne]

/-- A change is refused exactly for a name that is no field and for an element that the field does
not take. -/
theorem setChild_error_iff (hn : s.get n = .node label kids) :
    s.setChild n name e = .error fault ↔ s.Refuses label.kind name e fault := by
  have hkind : s.kind? n = some label.kind := by rw [kind?, label?, hn, Option.map_some]
  cases hname : label.kind.field? name with
  | none =>
    have hwrites : label.kind.writes? name = none := by
      simpa [Kind.reads?_unknown hname] using label.kind.writes?_reads? name
    simp only [setChild, hkind, hwrites, Except.error.injEq]
    constructor
    · rintro rfl
      exact .noField hname
    · rintro (_ | ⟨hf, -⟩)
      · rfl
      · cases hname.symm.trans hf
  | some f =>
    obtain ⟨rfl, hmem⟩ := Kind.field?_spec hname
    obtain ⟨i, hi⟩ := List.mem_iff_getElem?.mp hmem
    obtain ⟨m, c, -, hc, hset⟩ := Edit.setChild_field hn hi e
    have herror : s.setChild n f.name e = .error fault ↔
        s.convert label.kind f.name c e = .error fault := by
      rw [hset]
      cases s.convert label.kind f.name c e <;> simp [Except.map]
    rw [herror, convert_error_iff hc]
    constructor
    · rintro ⟨htakes, rfl⟩
      exact .misfit hname htakes
    · rintro (hf | ⟨hf, htakes⟩)
      · cases hname.symm.trans hf
      · obtain rfl := Option.some.inj (hname.symm.trans hf)
        exact ⟨htakes, rfl⟩

/-- A field that got an element, or got nothing as a field for one child, received it. -/
theorem received_put {held : Option Ref} (hn : s.get n = .node label kids)
    (hlength : kids.length = label.kind.members.length)
    (hknown : ∃ m, n = .cell m ∧ m < s.cells.size) (hf : label.fields[i]? = some f)
    (hsingle : held = none → f.isList = false) :
    s.Received n label f (.of held) (s.refill n (kids.set i held)) := by
  obtain ⟨hchild, hnode, hothers, helse⟩ := child_refill hn hlength hknown hf held
  refine ⟨fun x hx => ?_, fun hnone _ => ?_, fun hnone hlist => ?_, hnode, hothers,
    fun r _ hr => helse r hr⟩
  · have hsome : held = some x := Element.of_injective hx
    rw [hchild, hsome]
  · have hempty : held = none := Element.of_injective hnone
    rw [hchild, hempty]
  · have hempty : held = none := Element.of_injective hnone
    rw [hsingle hempty] at hlist
    cases hlist

/-- A field for a list that got a new empty list received nothing. -/
theorem received_renewed (hn : s.get n = .node label kids)
    (hlength : kids.length = label.kind.members.length)
    (hknown : ∃ m, n = .cell m ∧ m < s.cells.size) (hf : label.fields[i]? = some f)
    (hlist : f.isList = true) :
    s.Received n label f .nothing
      ((s.push (.list [])).refill n (kids.set i (some s.next))) := by
  have hold : s.Known n := by
    obtain ⟨m, rfl, hm⟩ := hknown
    exact hm
  have hn' : (s.push (.list [])).get n = .node label kids := by rw [get_push _ hold, hn]
  have hknown' : ∃ m, n = .cell m ∧ m < (s.push (.list [])).cells.size := by
    obtain ⟨m, rfl, hm⟩ := hknown
    exact ⟨m, rfl, by rw [size_push]; omega⟩
  obtain ⟨hchild, hnode, hothers, helse⟩ := child_refill hn' hlength hknown' hf (some s.next)
  have hnext : s.next ≠ n := fun heq => s.next_unknown (heq ▸ hold)
  have hnew : ((s.push (.list [])).refill n (kids.set i (some s.next))).get s.next = .list [] := by
    rw [helse _ hnext, get_push_next]
  refine ⟨fun x hx => by (cases hx), fun _ hsingle => ?_,
    fun _ _ => ⟨s.next, hchild, hnew, s.next_unknown⟩, hnode,
    fun other ho => (hothers other ho).trans (child_congr (get_push _ hold) other),
    fun r hr hrn => (helse r hrn).trans (get_push _ hr)⟩
  rw [hlist] at hsingle
  cases hsingle

/-- A change that goes through changes one field of the node. -/
theorem setChild_ok (hn : s.get n = .node label kids)
    (hlength : kids.length = label.kind.members.length) (h : s.setChild n name e = .ok t) :
    ∃ f, label.kind.field? name = some f ∧ s.Received n label f e t := by
  cases hname : label.kind.field? name with
  | none =>
    have herror := (setChild_error_iff (e := e) hn).mpr (.noField hname)
    cases herror.symm.trans h
  | some f =>
    obtain ⟨rfl, hmem⟩ := Kind.field?_spec hname
    obtain ⟨i, hf⟩ := List.mem_iff_getElem?.mp hmem
    -- the shared nodes have no fields
    have hcell : ∃ m, n = .cell m ∧ m < s.cells.size := by
      cases n with
      | emptyStatement | null =>
        obtain ⟨rfl, -⟩ := Cell.node.inj hn
        cases hname
      | cell m =>
        refine ⟨m, rfl, ?_⟩
        by_contra hunknown
        obtain ⟨rfl, -⟩ := Cell.node.inj (hn.symm.trans (get_unknown hunknown))
        cases hname
    obtain ⟨m, c, hm, hc, hset⟩ := Edit.setChild_field hn hf e
    refine ⟨f, rfl, ?_⟩
    cases hconvert : s.convert label.kind f.name c e with
    | error fault =>
      rw [hset, hconvert] at h
      cases h
    | ok p =>
      obtain ⟨held, u⟩ := p
      rw [hset, hconvert] at h
      obtain rfl : u.setMember n m held = t := Except.ok.inj h
      rcases convert_ok hconvert with ⟨rfl, rfl, hnone⟩ | ⟨rfl, rfl, rfl, hlist⟩
      · rw [Edit.setMember_eq hn hm]
        refine received_put hn hlength hcell hf fun hheld => ?_
        exact Bool.eq_false_iff.mpr fun hlist => hnone hheld (hc.toList_iff.mpr hlist)
      · have hold : s.Known n := by
          obtain ⟨j, rfl, hj⟩ := hcell
          exact hj
        rw [Edit.setMember_eq ((get_push _ hold).trans hn) hm]
        exact received_renewed hn hlength hcell hf (hc.toList_iff.mp hlist)

/-- An edit of one place that fails leaves the store as it was. -/
theorem edit_failed (pool : Option Pool) (s : Store) (target : Cursor) :
    (((Edit.replace target).apply pool s).2 ≠ none → ((Edit.replace target).apply pool s).1 = s) ∧
      (((Edit.remove target).apply pool s).2 ≠ none →
        ((Edit.remove target).apply pool s).1 = s) := by
  constructor
  · cases h : Edit.applyReplace pool s target <;> simp [Edit.apply, h]
  · cases h : Edit.applyRemove pool s target <;> simp [Edit.apply, h]

/-! ## Agreement -/

/-- The schema, reading and changing agree on a node with a label. -/
structure FieldsAgree (s : Store) (n : Ref) (label : Label) : Prop where
  /-- The accessors of the node's kind know exactly its fields. -/
  accessors : label.kind.AccessorsAgree
  /-- The fields hold all that the node holds. -/
  complete : (label.fields.map fun f => s.child n f.name) = s.below n
  /-- What is no field holds nothing. -/
  absent : ∀ name, label.kind.field? name = none → s.child n name = none
  /-- What is refused, and with which fault. -/
  refused : ∀ name e fault,
    s.setChild n name e = .error fault ↔ s.Refuses label.kind name e fault
  /-- Everything else goes through and changes one field. -/
  accepted : ∀ name e, (∀ fault, ¬ s.Refuses label.kind name e fault) →
    ∃ f t, label.kind.field? name = some f ∧ s.setChild n name e = .ok t ∧ s.Received n label f e t
  /-- An edit that fails, because a change was refused or otherwise, changes nothing. -/
  unchanged : ∀ pool target,
    (((Edit.replace target).apply pool s).2 ≠ none → ((Edit.replace target).apply pool s).1 = s) ∧
      (((Edit.remove target).apply pool s).2 ≠ none → ((Edit.remove target).apply pool s).1 = s)

/-- On every node that is a record of its kind, the schema, reading a field and changing a field
agree. -/
theorem fields_agree (hn : s.get n = .node label kids)
    (hlength : kids.length = label.kind.members.length) : s.FieldsAgree n label where
  accessors := label.kind.accessors_agree
  complete := child_all hn hlength
  absent := fun _ hname => child_no_field hn hname
  refused := fun _ _ _ => setChild_error_iff hn
  accepted := by
    intro name e hfree
    cases h : s.setChild n name e with
    | error fault => exact absurd ((setChild_error_iff hn).mp h) (hfree fault)
    | ok t =>
      obtain ⟨f, hf, hreceived⟩ := setChild_ok hn hlength h
      exact ⟨f, t, hf, rfl, hreceived⟩
  unchanged := fun pool target => edit_failed pool s target

/-- The store of the call `f()`. -/
def plainCall : Store :=
  ⟨#[.node (.identifierExpression "f") [], .list [],
    .node .callExpression [some (.cell 0), some (.cell 1)]]⟩

/-- The callee cannot be a list. -/
theorem fields_agree_call :
    plainCall.get (.cell 2) = .node .callExpression [some (.cell 0), some (.cell 1)] ∧
      plainCall.FieldsAgree (.cell 2) .callExpression ∧
      plainCall.setChild (.cell 2) "callee" (.ref (.cell 1)) =
        .error (.cannotHold .callExpression "callee" "*ast.List") := by
  have hagree : plainCall.FieldsAgree (.cell 2) .callExpression := fields_agree rfl rfl
  have hlist : ¬ plainCall.Takes (.single "callee" .expression) (.ref (.cell 1)) := by
    rw [takes_ref]
    decide
  exact ⟨rfl, hagree, (hagree.refused _ _ _).mpr (.misfit rfl hlist)⟩

end Store

end ScriptSimplifier
