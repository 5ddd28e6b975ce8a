import Mathlib.Data.List.Nodup
import ScriptSimplifier.Syntax.Member

/-!
# The members of a kind and its schema

The schema lists the fields of a kind, and the kind's own accessors read and write the members of
its record by name.  The two are written down independently of each other, and they agree
(`Kind.accessors_agree`): the field at a position is read from the member at that position and
written to it, the conversion lets exactly that through which the field may hold, and a name that is
no field is unknown to both accessors.  Only this module goes through the kinds one by one; whatever
later proofs need to know about the fields of a node follows from the agreement.
-/

namespace ScriptSimplifier

/-! ## Conversions and categories -/

/-- Whether a field may hold a node of a kind, or a list if there is no kind. -/
def Field.takes (f : Field) (kind? : Option Kind) : Bool :=
  if f.isList then kind?.isNone else kind?.any f.accepts.accepts

namespace Conversion

variable {c : Conversion} {f : Field}

/-- A conversion lets exactly that through which a field may hold. -/
def Suits (c : Conversion) (f : Field) : Prop := ∀ kind?, c.passes kind? = f.takes kind?

theorem toExpression_suits (name : String) (optional : Bool) :
    toExpression.Suits ⟨name, false, optional, .expression⟩ := by
  intro kind?
  cases kind? <;> rfl

theorem toStatement_suits (name : String) (optional : Bool) :
    toStatement.Suits ⟨name, false, optional, .statement⟩ := by
  intro kind?
  cases kind? <;> rfl

theorem toBlock_suits (name : String) (optional : Bool) :
    toBlock.Suits ⟨name, false, optional, .block⟩ := by
  intro kind?
  cases kind? <;> rfl

theorem toFunctionBody_suits (name : String) (optional : Bool) :
    toFunctionBody.Suits ⟨name, false, optional, .functionBody⟩ := by
  intro kind?
  cases kind? <;> rfl

theorem toList_suits (name : String) (optional : Bool) (accepts : Category) :
    toList.Suits ⟨name, true, optional, accepts⟩ := by
  intro kind?
  cases kind? <;> rfl

/-- Only the conversion to a list lets a list through. -/
theorem Suits.toList_iff (h : c.Suits f) : c = .toList ↔ f.isList = true := by
  have hlist : c.passes none = f.isList := by
    rw [h none]
    cases hf : f.isList <;> simp [Field.takes, hf]
  rw [← hlist]
  cases c <;> simp [passes]

end Conversion

namespace Kind

variable {k : Kind} {name : String} {m : Member} {f : Field} {i : Nat}

/-! ## Fields by name -/

/-- The names of a kind's fields are all different. -/
theorem nodup_names (k : Kind) : (k.fields.map Field.name).Nodup := by
  cases k <;> decide

/-- A field of a kind that is found by its name has that name and is one of the kind's. -/
theorem field?_spec (h : k.field? name = some f) : f.name = name ∧ f ∈ k.fields :=
  ⟨by simpa using List.find?_some h, List.mem_of_find?_eq_some h⟩

/-- The field of a kind with the name of one of its fields is that field. -/
theorem field?_eq (hf : k.fields[i]? = some f) : k.field? f.name = some f := by
  have hmem : f ∈ k.fields := List.mem_of_getElem? hf
  have hnodup := k.nodup_names
  rw [field?]
  revert hmem hnodup
  induction k.fields with
  | nil => simp
  | cons g rest ih =>
    intro hmem hnodup
    rw [List.map_cons, List.nodup_cons] at hnodup
    rcases List.mem_cons.mp hmem with rfl | hmem
    · simp
    · have hne : g.name ≠ f.name := fun heq =>
        hnodup.1 (List.mem_map.mpr ⟨f, hmem, heq.symm⟩)
      rw [List.find?_cons_of_neg (by simpa using hne)]
      exact ih hmem hnodup.2

/-! ## The accessors of every kind -/

/-- No member of a record is declared twice. -/
theorem nodup_members (k : Kind) : k.members.Nodup := by
  cases k <;> decide

/-- Read by their names, the fields are the members in order. -/
theorem reads?_fields (k : Kind) :
    (k.fields.map fun f => k.reads? f.name) = k.members.map some := by
  cases k <;> decide

/-- A name that is no field is not read. -/
theorem reads?_unknown (h : k.field? name = none) : k.reads? name = none := by
  have hother : ∀ f ∈ k.fields, f.name ≠ name := by simpa [field?] using h
  cases k <;> simp only [reads?] <;> split <;>
    simp_all [fields, Field.single, Field.maybe, Field.list]

/-- The member written under a name is the member read under it. -/
theorem writes?_reads? (k : Kind) (name : String) :
    (k.writes? name).map (·.1) = k.reads? name := by
  cases k <;> simp only [reads?, writes?] <;> (try split) <;> simp_all

/-- What is written into a field is converted to what the field may hold. -/
theorem writes?_fields (k : Kind) :
    ∀ f ∈ k.fields, ∃ m c, k.writes? f.name = some (m, c) ∧ c.Suits f := by
  cases k <;> simp [fields, Field.single, Field.maybe, Field.list, writes?,
    Conversion.toExpression_suits, Conversion.toStatement_suits, Conversion.toBlock_suits,
    Conversion.toFunctionBody_suits, Conversion.toList_suits]

/-- The accessors of a kind and its schema agree. -/
structure AccessorsAgree (k : Kind) : Prop where
  /-- Read by their names, the fields are the members in order, and no member is left over. -/
  reads : (k.fields.map fun f => k.reads? f.name) = k.members.map some
  /-- What is written into a field is converted to what the field may hold. -/
  converts : ∀ f ∈ k.fields, ∃ m c, k.writes? f.name = some (m, c) ∧ c.Suits f
  /-- The member written under a name is the member read under it. -/
  writes : ∀ name, (k.writes? name).map (·.1) = k.reads? name
  /-- A name that is no field is not read, and so not written. -/
  unknown : ∀ name, k.field? name = none → k.reads? name = none

theorem accessors_agree (k : Kind) : k.AccessorsAgree where
  reads := k.reads?_fields
  converts := k.writes?_fields
  writes := k.writes?_reads?
  unknown := fun _ => reads?_unknown

/-! ## Members by position -/

/-- A record has one member for each field of its kind. -/
theorem length_members (k : Kind) : k.members.length = k.fields.length := by
  simpa using (congrArg List.length k.reads?_fields).symm

/-- A field is read from the member at its position. -/
theorem reads?_position (hf : k.fields[i]? = some f) :
    ∃ m, k.members[i]? = some m ∧ k.reads? f.name = some m := by
  have hread := congrArg (·[i]?) k.reads?_fields
  simp only [List.getElem?_map, hf, Option.map_some] at hread
  cases hm : k.members[i]? with
  | none => simp [hm] at hread
  | some m => exact ⟨m, rfl, by simpa [hm] using hread⟩

/-- A field is written to the member at its position, after the conversion to what it may hold. -/
theorem writes?_position (hf : k.fields[i]? = some f) :
    ∃ m c, k.members[i]? = some m ∧ k.writes? f.name = some (m, c) ∧ c.Suits f := by
  obtain ⟨m, hm, hread⟩ := reads?_position hf
  obtain ⟨m', c, hwrites, hsuits⟩ := k.writes?_fields f (List.mem_of_getElem? hf)
  have hsame := k.writes?_reads? f.name
  rw [hwrites, hread] at hsame
  obtain rfl : m' = m := Option.some.inj hsame
  exact ⟨m', c, hm, hwrites, hsuits⟩

/-- A member is found at the position at which the record declares it. -/
theorem idxOf_members (hm : k.members[i]? = some m) : k.members.idxOf m = i := by
  obtain ⟨hi, rfl⟩ := List.getElem?_eq_some_iff.mp hm
  exact k.nodup_members.idxOf_getElem i hi

/-- What is read under a name is the member at the position of the field with that name. -/
theorem position_of_reads? (h : k.reads? name = some m) :
    ∃ f, f.name = name ∧ k.fields[k.members.idxOf m]? = some f := by
  cases hf : k.field? name with
  | none => simp [reads?_unknown hf] at h
  | some f =>
    obtain ⟨rfl, hmem⟩ := field?_spec hf
    obtain ⟨i, hi⟩ := List.mem_iff_getElem?.mp hmem
    obtain ⟨m', hm', hread⟩ := reads?_position hi
    obtain rfl := Option.some.inj (hread.symm.trans h)
    exact ⟨f, rfl, by rw [idxOf_members hm', hi]⟩

end Kind

end ScriptSimplifier
