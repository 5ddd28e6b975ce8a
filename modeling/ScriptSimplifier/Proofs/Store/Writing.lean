import ScriptSimplifier.Proofs.Edits
import ScriptSimplifier.Proofs.Store.Growth

/-!
# What edits write

Nothing is assumed of the store or of the places that an edit was built from.  An edit of one place
that goes through writes to one element, the one that holds the place, and puts nothing there but
what stood there, the element of the place, or a new empty list (`Store.Writes`).  Whatever every
such write keeps, every edit keeps, also one that fails on the way (`Edit.apply_keeps`).
-/

namespace ScriptSimplifier

theorem Element.of_injective {e e' : Option Ref} (h : Element.of e = .of e') : e = e' := by
  cases e <;> cases e' <;> cases h <;> rfl

namespace Store

variable {s t : Store} {x : Ref} {fresh : Option Ref}

/-! ## Writes -/

/-- What an edit of one place writes to the element that holds it. -/
inductive Writes (s : Store) (x : Ref) (fresh : Option Ref) : Store → Prop
  | refilled {kids : List (Option Ref)} : (∀ e ∈ kids, e = fresh ∨ e ∈ s.below x) →
      Writes s x fresh (s.refill x kids)
  /-- The field of a list got a new empty list. -/
  | emptied {kids : List (Option Ref)} : s.Known x →
      (∀ e ∈ kids, e = some s.next ∨ e ∈ s.below x) →
      Writes s x fresh ((s.push (.list [])).refill x kids)

theorem known_refill {kids : List (Option Ref)} {r : Ref} :
    (s.refill x kids).Known r ↔ s.Known r := known_set

theorem Writes.known (h : s.Writes x fresh t) {r : Ref} (hr : s.Known r) : t.Known r := by
  cases h with
  | refilled => exact known_refill.mpr hr
  | emptied => exact known_refill.mpr (hr.push _)

/-- Only the element that holds the place is written to. -/
theorem Writes.get (h : s.Writes x fresh t) {r : Ref} (hr : s.Known r) (hne : r ≠ x) :
    t.get r = s.get r := by
  cases h with
  | refilled => exact get_refill_ne _ hne
  | emptied => rw [get_refill_ne _ hne, get_push _ hr]

/-- A list stays a list, and a node a node. -/
theorem Writes.isList (h : s.Writes x fresh t) {r : Ref} (hr : s.Known r) :
    t.isList r = s.isList r := by
  cases h with
  | refilled => exact isList_refill _ _ _ _
  | emptied =>
    rw [isList_refill]
    unfold Store.isList
    rw [get_push _ hr]

theorem closed_refill (hc : s.Closed) {kids : List (Option Ref)}
    (hkids : ∀ e ∈ kids, s.KnownAt e) : (s.refill x kids).Closed := by
  intro p c hholds
  rw [known_refill]
  by_cases hp : p = x
  · subst hp
    obtain ⟨n, rfl, hn⟩ := hholds.cell
    have hlt : n < s.cells.size := Nat.lt_of_lt_of_eq hn (size_set _ _ _)
    have hcell : ∃ m, Ref.cell n = .cell m ∧ m < s.cells.size := ⟨n, rfl, hlt⟩
    unfold Holds below at hholds
    rw [get_refill_self kids hcell, Cell.below_refill] at hholds
    exact hkids _ hholds c rfl
  · unfold Holds below at hholds
    rw [get_refill_ne kids hp] at hholds
    exact hc p c hholds

/-- Nothing unknown is written. -/
theorem Writes.closed (h : s.Writes x fresh t) (hc : s.Closed) (hfresh : s.KnownAt fresh) :
    t.Closed := by
  cases h with
  | refilled hkids =>
    apply closed_refill hc
    intro e he
    rcases hkids e he with rfl | hbelow
    · exact hfresh
    · exact hc.knownAt hbelow
  | emptied _ hkids =>
    have hpush : (s.push (.list [])).Closed := hc.push (by simp [Cell.below])
    apply closed_refill hpush
    intro e he
    rcases hkids e he with rfl | hbelow
    · exact knownAt_some.mpr (s.next_known _)
    · exact (s.extends_push _).knownAt (hc.knownAt hbelow)

/-! ## Changing a child -/

theorem setMember_writes (s : Store) (x : Ref) (m : Member) (e : Option Ref) :
    ∃ kids, s.setMember x m e = s.refill x kids ∧ ∀ k ∈ kids, k = e ∨ k ∈ s.below x := by
  cases hget : s.get x with
  | list items =>
    refine ⟨s.below x, ?_, fun k hk => .inr hk⟩
    rw [refill_below]
    simp only [setMember, hget]
  | node label children =>
    refine ⟨children.set (label.kind.members.idxOf m) e, ?_, fun k hk => ?_⟩
    · simp only [setMember, refill, hget, Cell.refill]
    · rw [below_node hget]
      exact (List.mem_or_eq_of_mem_set hk).symm

/-- An element that passes a conversion is what is written, except that no list is a new empty
list. -/
theorem convert_ok {owner : Kind} {name : String} {c : Conversion} {e : Element}
    {held : Option Ref} (h : s.convert owner name c e = .ok (held, t)) :
    (e = .of held ∧ t = s ∧ (held = none → c ≠ .toList)) ∨
      (e = .nothing ∧ t = s.push (.list []) ∧ held = some s.next ∧ c = .toList) := by
  cases e with
  | nothing =>
    cases c with
    | toList =>
      obtain ⟨rfl, rfl⟩ := Prod.mk.inj (Except.ok.inj h)
      exact .inr ⟨rfl, rfl, rfl, rfl⟩
    | toExpression | toStatement | toBlock | toFunctionBody =>
      obtain ⟨rfl, rfl⟩ := Prod.mk.inj (Except.ok.inj h)
      exact .inl ⟨rfl, rfl, fun _ hc => by cases hc⟩
  | nilList => cases h
  | ref r =>
    rw [convert] at h
    split at h
    · obtain ⟨rfl, rfl⟩ := Prod.mk.inj (Except.ok.inj h)
      exact .inl ⟨rfl, rfl, fun hnone => by cases hnone⟩
    · cases h

/-- What is written under a name of a node is first converted and then put into a member. -/
theorem setChild_cases {name : String} {e : Element} (h : s.setChild x name e = .ok t) :
    (s.kind? x = none ∧ t = s) ∨
      ∃ kind m c held u, s.kind? x = some kind ∧ kind.writes? name = some (m, c) ∧
        s.convert kind name c e = .ok (held, u) ∧ t = u.setMember x m held := by
  rw [setChild] at h
  split at h
  · rename_i hkind
    exact .inl ⟨hkind, (Except.ok.inj h).symm⟩
  · rename_i kind hkind
    split at h
    · cases h
    · rename_i m c hwrites
      obtain ⟨⟨held, u⟩, hconvert, h⟩ := ok_of_bind h
      exact .inr ⟨kind, m, c, held, u, hkind, hwrites, hconvert, (Except.ok.inj h).symm⟩

/-- A node with a member to write to was given out: what was not reads as an empty statement. -/
theorem known_of_writes {kind : Kind} {name : String} {w : Member × Conversion}
    (hkind : s.kind? x = some kind) (hw : kind.writes? name = some w) : s.Known x := by
  by_contra hunknown
  rw [kind?, label?, get_unknown hunknown] at hkind
  obtain rfl := Option.some.inj hkind
  cases hw

theorem setChild_writes {name : String} {e : Option Ref} (h : s.setChild x name (.of e) = .ok t) :
    s.Writes x e t := by
  rcases setChild_cases h with ⟨-, rfl⟩ | ⟨kind, m, c, held, u, hkind, hw, hconvert, rfl⟩
  · have hsame : t.Writes x e (t.refill x (t.below x)) := .refilled fun _ hk => .inr hk
    rwa [t.refill_below x] at hsame
  · have hknown := known_of_writes hkind hw
    rcases convert_ok hconvert with ⟨he, rfl, -⟩ | ⟨-, rfl, rfl, -⟩
    · obtain rfl := Element.of_injective he
      obtain ⟨kids, heq, hkids⟩ := u.setMember_writes x m e
      rw [heq]
      exact .refilled hkids
    · obtain ⟨kids, heq, hkids⟩ := (s.push (.list [])).setMember_writes x m (some s.next)
      rw [heq]
      refine .emptied hknown fun k hk => ?_
      rw [← (s.extends_push (.list [])).below hknown]
      exact hkids k hk

end Store

namespace Edit

variable {pool : Option Pool} {s t : Store} {target : Cursor}

/-! ## Edits of one place -/

theorem items_of_isList {x : Ref} (h : s.isList x = true) :
    s.get x = .list (s.itemsOf (some x)) := by
  cases hget : s.get x with
  | node label kids => simp [Store.isList, hget] at h
  | list items => simp [Store.itemsOf, Store.items?, hget]

theorem set_list_writes {x : Ref} (h : s.isList x = true) {fresh : Option Ref}
    {items : List (Option Ref)} (hitems : ∀ e ∈ items, e = fresh ∨ e ∈ s.itemsOf (some x)) :
    s.Writes x fresh (s.set x (.list items)) := by
  have hget := items_of_isList h
  have hrefill : s.set x (.list items) = s.refill x items := by
    rw [Store.refill, hget]
    rfl
  have hbelow : s.below x = s.itemsOf (some x) := by
    rw [Store.below, hget]
    rfl
  rw [hrefill]
  exact .refilled fun e he => hbelow ▸ hitems e he

theorem applyReplace_writes (h : applyReplace pool s target = .ok t) :
    ∃ holder n, editableParent pool s target = .ok holder ∧ target.element = some n ∧
      s.Writes holder (some n) t := by
  unfold applyReplace at h
  dsimp only at h
  split at h
  · cases h
  · rename_i hsome
    obtain ⟨n, hn⟩ := Option.ne_none_iff_exists'.mp (by simpa using hsome)
    obtain ⟨holder, hholder, h⟩ := ok_of_bind h
    refine ⟨holder, n, ok_of_mapError hholder, (Option.filter_eq_some_iff.mp hn).1, ?_⟩
    split at h
    · rename_i hlist
      split at h
      · rename_i u hset
        obtain rfl := Except.ok.inj h
        unfold Store.setItem? at hset
        dsimp only at hset
        split at hset
        · obtain rfl := Option.some.inj hset
          apply set_list_writes hlist
          intro e he
          rw [hn] at he
          rcases List.mem_or_eq_of_mem_set he with hmem | rfl
          · exact .inr hmem
          · exact .inl rfl
        · cases hset
      · cases h
    · rw [hn] at h
      exact Store.setChild_writes (ok_of_mapError h)

theorem applyRemove_writes (h : applyRemove pool s target = .ok t) :
    ∃ holder, editableParent pool s target = .ok holder ∧ s.Writes holder none t := by
  obtain ⟨holder, hholder, h⟩ := ok_of_bind h
  refine ⟨holder, ok_of_mapError hholder, ?_⟩
  split at h
  · rename_i hlist
    split at h
    · rename_i u hremove
      obtain rfl := Except.ok.inj h
      unfold Store.removeItem? at hremove
      dsimp only at hremove
      split at hremove
      · obtain rfl := Option.some.inj hremove
        apply set_list_writes hlist
        intro e he
        exact .inr (List.mem_of_mem_eraseIdx he)
      · cases hremove
    · cases h
  · exact Store.setChild_writes (ok_of_mapError h)

/-! ## Edits -/

/-- What every write of some edits keeps: one to the element that holds an editable place, of
nothing or of the element of a place that the edits touch. -/
def Keeps (pool : Option Pool) (touched : List Cursor) (P : Store → Prop) : Prop :=
  ∀ s t target holder fresh, P s → editableParent pool s target = .ok holder →
    (fresh = none ∨ ∃ d ∈ touched, fresh = d.element) → s.Writes holder fresh t → P t

theorem Keeps.mono {touched more : List Cursor} {P : Store → Prop} (h : Keeps pool more P)
    (hsub : ∀ d ∈ touched, d ∈ more) : Keeps pool touched P := by
  intro s t target holder fresh hs hholder hfresh hwrites
  refine h s t target holder fresh hs hholder ?_ hwrites
  rcases hfresh with rfl | ⟨d, hd, rfl⟩
  · exact .inl rfl
  · exact .inr ⟨d, hsub d hd, rfl⟩

mutual

/-- What every write of an edit keeps, the edit keeps, also if it fails. -/
theorem apply_keeps {P : Store → Prop} (edit : Edit) (s : Store)
    (hkeeps : Keeps pool edit.invalidated P) (hs : P s) : P (edit.apply pool s).1 := by
  match edit with
  | .replace target =>
    rw [apply]
    split
    · rename_i t happly
      obtain ⟨holder, n, hholder, hn, hwrites⟩ := applyReplace_writes happly
      refine hkeeps s t target holder (some n) hs hholder (.inr ⟨target, ?_, hn.symm⟩) hwrites
      exact List.mem_cons_self
    · exact hs
  | .remove target =>
    rw [apply]
    split
    · rename_i t happly
      obtain ⟨holder, hholder, hwrites⟩ := applyRemove_writes happly
      exact hkeeps s t target holder none hs hholder (.inl rfl) hwrites
    · exact hs
  | .batch edits =>
    rw [apply]
    exact applyAll_keeps edits s 0 hkeeps hs

/-- The same of edits in order. -/
theorem applyAll_keeps {P : Store → Prop} (edits : List Edit) (s : Store) (position : Nat)
    (hkeeps : Keeps pool (invalidatedAll edits) P) (hs : P s) :
    P (applyAll pool s position edits).1 := by
  match edits with
  | [] => exact hs
  | edit :: rest =>
    have hedit := apply_keeps edit s
      (hkeeps.mono fun d hd => List.mem_append_left _ hd) hs
    rw [applyAll]
    split
    · rename_i t happly
      rw [happly] at hedit
      exact applyAll_keeps rest t (position + 1)
        (hkeeps.mono fun d hd => List.mem_append_right _ hd) hedit
    · rename_i t failure happly
      rw [happly] at hedit
      exact hedit

end

end Edit

end ScriptSimplifier
