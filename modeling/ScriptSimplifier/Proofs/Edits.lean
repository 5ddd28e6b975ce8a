import Mathlib.Data.List.Basic
import Mathlib.Data.List.Forall2
import Mathlib.Data.Set.List
import ScriptSimplifier.Edit
import ScriptSimplifier.Proofs.Places

/-!
# What edits do

An edit at a live place of the tree changes one element: the one that holds the place.  Putting a
node there replaces one of its children (`apply_put`), and a batch of edits on one list changes its
items as if they were a plain list, where removing positions from the last to the first takes out
exactly the items that stood there (`apply_removeAll`).
-/

namespace ScriptSimplifier

/-! ## Computations that may fail -/

/-- A computation in two parts succeeds if both do. -/
theorem ok_of_bind {ε : Type*} {α β : Type} {x : Except ε α} {f : α → Except ε β} {b : β}
    (h : x >>= f = .ok b) : ∃ a, x = .ok a ∧ f a = .ok b := by
  cases x with
  | error _ => cases h
  | ok a => exact ⟨a, rfl, h⟩

theorem ok_of_mapError {ε ε' α : Type*} {x : Except ε α} {f : ε → ε'} {a : α}
    (h : x.mapError f = .ok a) : x = .ok a := by
  cases x with
  | error _ => cases h
  | ok _ => exact congrArg Except.ok (Except.ok.inj h)

/-! ## Replacing an item -/

/-- Only the item that the new one replaces has to be related to it. -/
theorem forall₂_set {α β : Type*} {R : α → β → Prop} {l : List α} {l' : List β}
    (h : List.Forall₂ R l l') {i : Nat} {b : β} (hb : ∀ a, l[i]? = some a → R a b) :
    List.Forall₂ R l (l'.set i b) := by
  induction h generalizing i with
  | nil => exact .nil
  | cons ha hrest ih =>
    cases i with
    | zero => exact .cons (hb _ rfl) hrest
    | succ i => exact .cons ha (ih hb)

/-! ## Removing positions -/

/-- A list without the items at some positions, where the first item has the given position. -/
def without {α : Type*} (positions : List Nat) : (start : Nat) → List α → List α
  | _, [] => []
  | start, a :: rest =>
    if start ∈ positions then without positions (start + 1) rest
    else a :: without positions (start + 1) rest

section without

variable {α : Type*}

@[simp] theorem without_none (start : Nat) (l : List α) : without [] start l = l := by
  induction l generalizing start with
  | nil => rfl
  | cons a rest ih => simp [without, ih]

/-- Only the positions that the list has matter. -/
theorem without_congr {ps qs : List Nat} {start : Nat} {l : List α}
    (h : ∀ i, start ≤ i → i < start + l.length → (i ∈ ps ↔ i ∈ qs)) :
    without ps start l = without qs start l := by
  induction l generalizing start with
  | nil => rfl
  | cons a rest ih =>
    have hrest := @ih (start + 1) fun i hi hlt =>
      h i (by omega) (by simp only [List.length_cons]; omega)
    simp only [without, hrest, h start (Nat.le_refl _) (by simp)]

theorem without_append (ps : List Nat) (start : Nat) (l m : List α) :
    without ps start (l ++ m) = without ps start l ++ without ps (start + l.length) m := by
  induction l generalizing start with
  | nil => rfl
  | cons a rest ih =>
    have hstart : start + (rest.length + 1) = start + 1 + rest.length := by omega
    by_cases hs : start ∈ ps
    · simp [without, hs, ih, hstart]
    · simp [without, hs, ih, hstart]

/-- Removing the item behind all other positions first. -/
theorem without_cons {d : Nat} {ds : List Nat} (hd : ∀ i ∈ ds, i < d) {start : Nat} {l : List α}
    (hstart : start ≤ d) :
    without ds start (l.eraseIdx (d - start)) = without (d :: ds) start l := by
  induction l generalizing start with
  | nil => rfl
  | cons a rest ih =>
    by_cases hhere : d = start
    · subst hhere
      have hnot : ∀ i, d + 1 ≤ i → i < d + 1 + rest.length →
          (i ∈ d :: ds ↔ i ∈ ([] : List Nat)) := by
        intro i hi _
        simp only [List.mem_cons, List.not_mem_nil, iff_false, not_or]
        exact ⟨by omega, fun hmem => by have := hd i hmem; omega⟩
      have hnot' : ∀ i, d ≤ i → i < d + rest.length → (i ∈ ds ↔ i ∈ ([] : List Nat)) := by
        intro i hi _
        simp only [List.not_mem_nil, iff_false]
        exact fun hmem => by have := hd i hmem; omega
      simp [without, without_congr hnot, without_congr hnot']
    · have hsucc : d - start = (d - (start + 1)) + 1 := by omega
      rw [hsucc, List.eraseIdx_cons_succ, without, without, ih (by omega)]
      have hmem : start ∈ d :: ds ↔ start ∈ ds := by
        simp [Ne.symm hhere]
      simp only [hmem]

/-- Erasing positions from the last to the first takes out what stood there. -/
theorem foldl_eraseIdx {ds : List Nat} (hds : ds.Pairwise (· > ·)) (l : List α) :
    ds.foldl List.eraseIdx l = without ds 0 l := by
  induction ds generalizing l with
  | nil => simp
  | cons d ds ih =>
    rw [List.pairwise_cons] at hds
    rw [List.foldl_cons, ih hds.2]
    exact without_cons (fun i hi => hds.1 i hi) (Nat.zero_le _)

end without

/-! ## Descending positions -/

theorem pairwise_eraseDups {l : List Int} (h : l.Pairwise (· ≥ ·)) :
    l.eraseDups.Pairwise (· > ·) := by
  obtain ⟨n, hn⟩ : ∃ n, l.length ≤ n := ⟨_, Nat.le_refl _⟩
  induction n generalizing l with
  | zero =>
    obtain rfl := List.length_eq_zero_iff.mp (Nat.le_zero.mp hn)
    simp
  | succ n ih =>
    cases l with
    | nil => simp
    | cons a rest =>
      rw [List.pairwise_cons] at h
      rw [List.eraseDups_cons, List.pairwise_cons]
      refine ⟨fun b hb => ?_, ih (h.2.sublist List.filter_sublist) ?_⟩
      · obtain ⟨hmem, hne⟩ := List.mem_filter.mp (List.mem_eraseDups.mp hb)
        have hge := h.1 b hmem
        have hne' : b ≠ a := by simpa using hne
        omega
      · have := List.length_filter_le (fun b => !b == a) rest
        simp only [List.length_cons] at hn
        omega

/-- The positions of a removal, each once and the last first. -/
def descending (ps : List Int) : List Int :=
  (ps.mergeSort (fun a b => decide (b ≤ a))).eraseDups

@[simp] theorem mem_descending {ps : List Int} {i : Int} : i ∈ descending ps ↔ i ∈ ps := by
  rw [descending, List.mem_eraseDups, List.mem_mergeSort]

theorem pairwise_descending (ps : List Int) : (descending ps).Pairwise (· > ·) := by
  refine pairwise_eraseDups ?_
  have hle := @List.pairwise_mergeSort Int (fun a b => decide (b ≤ a))
    (by intro a b c hab hbc; simp only [decide_eq_true_eq] at *; omega)
    (by intro a b; simp only [Bool.or_eq_true, decide_eq_true_eq]; omega) ps
  exact hle.imp fun h => by simpa using h

theorem removeAll_eq (u : Store) (place : Cursor) (ps : List Int) :
    Edit.removeAll u place ps =
      .batch ((descending ps).map fun i => .remove (place.index u i)) := rfl

theorem mem_map_cast {ps : List Nat} {i : Nat} :
    (i : Int) ∈ ps.map (fun i : Nat => (i : Int)) ↔ i ∈ ps :=
  List.mem_map_of_injective fun _ _ => Int.ofNat_inj.mp

/-- Positions that are not below zero are numbers. -/
theorem exists_descending (ps : List Nat) :
    ∃ ds : List Nat, ds.Pairwise (· > ·) ∧ (∀ i, i ∈ ds ↔ i ∈ ps) ∧
      descending (ps.map fun i : Nat => (i : Int)) = ds.map fun i : Nat => (i : Int) := by
  have hmem : ∀ z, z ∈ descending (ps.map fun i : Nat => (i : Int)) ↔
      z ∈ ps.map fun i : Nat => (i : Int) := fun _ => mem_descending
  have hdesc := pairwise_descending (ps.map fun i : Nat => (i : Int))
  generalize descending (ps.map fun i : Nat => (i : Int)) = sorted at hmem hdesc ⊢
  have hnonneg : ∀ z ∈ sorted, 0 ≤ z := by
    intro z hz
    obtain ⟨i, -, rfl⟩ := List.mem_map.mp ((hmem z).mp hz)
    exact Int.natCast_nonneg i
  lift sorted to List Nat using hnonneg
  refine ⟨sorted, ?_, fun i => ?_, rfl⟩
  · exact (List.pairwise_map.mp hdesc).imp fun h => Int.ofNat_lt.mp h
  · rw [← mem_map_cast, hmem, mem_map_cast]

/-! ## Changes that keep the kind of every element -/

namespace Store

/-- The store with other references in the places of an element. -/
def refill (s : Store) (r : Ref) (kids : List (Option Ref)) : Store :=
  s.set r ((s.get r).refill kids)

theorem get_refill_ne {s : Store} {x r : Ref} (kids : List (Option Ref)) (h : r ≠ x) :
    (s.refill x kids).get r = s.get r :=
  get_set_ne _ h

theorem get_refill_self {s : Store} {x : Ref} (kids : List (Option Ref))
    (hx : ∃ n, x = .cell n ∧ n < s.cells.size) :
    (s.refill x kids).get x = (s.get x).refill kids := by
  obtain ⟨n, rfl, hn⟩ := hx
  exact get_set_self _ hn

/-- An element has other children only if it is the one that was refilled. -/
theorem get_refill_cases (s : Store) (x : Ref) (kids : List (Option Ref)) (r : Ref) :
    (s.refill x kids).get r = s.get r ∨
      r = x ∧ (s.refill x kids).get r = (s.get r).refill kids := by
  by_cases hr : r = x
  · subst hr
    by_cases hown : ∃ n, r = .cell n ∧ n < s.cells.size
    · exact .inr ⟨rfl, get_refill_self kids hown⟩
    · cases r with
      | emptyStatement | null => exact .inl rfl
      | cell n =>
        have hn : ¬ n < s.cells.size := fun hn => hown ⟨n, rfl, hn⟩
        refine .inl ((get_unknown ?_).trans (get_unknown ?_).symm) <;>
          simpa [Known, refill] using hn
  · exact .inl (get_refill_ne kids hr)

@[simp] theorem label?_refill (s : Store) (x : Ref) (kids : List (Option Ref)) (r : Ref) :
    (s.refill x kids).label? r = s.label? r := by
  rcases s.get_refill_cases x kids r with hget | ⟨-, hget⟩
  · rw [label?, hget, label?]
  · rw [label?, hget, label?]
    cases s.get r <;> rfl

@[simp] theorem isList_refill (s : Store) (x : Ref) (kids : List (Option Ref)) (r : Ref) :
    (s.refill x kids).isList r = s.isList r := by
  have hlist : ∀ t : Store, t.isList r = (t.label? r).isNone := by
    intro t
    rw [isList, label?]
    cases t.get r <;> rfl
  rw [hlist, hlist, label?_refill]

theorem refill_below (s : Store) (x : Ref) : s.refill x (s.below x) = s := by
  rw [refill, below, Cell.refill_below]
  cases x with
  | emptyStatement => rfl
  | null => rfl
  | cell n =>
    cases s with
    | mk cells =>
      simp only [set, get, Store.mk.injEq]
      ext i hi hi' : 1
      · simp
      · rw [Array.getElem_setIfInBounds hi']
        split
        · rename_i hin
          subst hin
          simp [Array.getElem?_eq_getElem hi']
        · rfl

end Store

namespace Edit

variable {s : Store} {root : Ref} {strict : Strictness} {pool : Pool}

/-! ## Editable places -/

theorem nodePlace?_node {c : Cursor} {r : Ref} (hc : c.element = some r)
    (hr : s.isList r = false) : c.nodePlace? s = some c := by
  cases c with
  | root e =>
    obtain rfl : e = some r := hc
    simp [Cursor.nodePlace?, hr]
  | step parent key e =>
    obtain rfl : e = some r := hc
    simp [Cursor.nodePlace?, hr]

/-- What a place below a live one needs to be edited: that the element above is no fragment. -/
theorem editableParent_ok (ht : s.Typed strict) (hroot : s.isList root = false)
    (hpool : ∀ p c, pool.isConstant (some p) = true → s.Holds p c →
      pool.isConstant (some c) = true)
    {parent : Cursor} (hparent : parent.Live s root) {holder : Ref}
    (hholder : parent.element = some holder) (hfree : pool.isConstant (some holder) = false)
    (key : Key) (e : Option Ref) :
    editableParent (some pool) s (.step parent key e) = .ok holder := by
  obtain ⟨owner, howner, hown⟩ : ∃ owner,
      (Cursor.owner? s (.step parent key e)).bind (·.node? s) = some owner ∧
        pool.isConstant (some owner) = false := by
    cases hlist : s.isList holder with
    | false =>
      refine ⟨holder, ?_, hfree⟩
      simp [Cursor.owner?, Cursor.parent?, nodePlace?_node hholder hlist, Cursor.node?, hholder,
        hlist]
    | true =>
      obtain ⟨p, name, o, rfl, _, ho, hnode, hholds⟩ :=
        hparent.list_parent ht hroot hholder hlist
      refine ⟨o, ?_, ?_⟩
      · simp [Cursor.owner?, Cursor.parent?, Cursor.nodePlace?, hlist, nodePlace?_node ho hnode,
          Cursor.node?, ho, hnode]
      · by_contra hconstant
        have := hpool o holder (by simpa using hconstant) hholds.holds
        rw [hfree] at this
        simp at this
  simp [editableParent, Cursor.parent?, hholder, howner, hown]

/-- Whether a place may be edited depends only on which elements are lists. -/
theorem editableParent_congr {t : Store} (h : ∀ r, t.isList r = s.isList r) {place : Cursor}
    {holder : Ref} (hok : editableParent (some pool) s place = .ok holder) :
    editableParent (some pool) t place = .ok holder := by
  have hnode : ∀ c : Cursor, c.node? t = c.node? s := by
    intro c
    simp [Cursor.node?, h]
  have hplace : ∀ c : Cursor, c.nodePlace? t = c.nodePlace? s := by
    intro c
    induction c with
    | root e => simp [Cursor.nodePlace?, funext h]
    | step parent key e ih => simp [Cursor.nodePlace?, funext h, ih]
  have howner : (place.owner? t).bind (·.node? t) = (place.owner? s).bind (·.node? s) := by
    simp [Cursor.owner?, funext hplace, funext hnode]
  revert hok
  rw [editableParent, editableParent]
  cases place.parent? with
  | none => simp
  | some parent =>
    cases hparent : parent.element with
    | none => simp [hparent]
    | some r =>
      simp only [hparent, howner]
      split <;> simp

/-! ## Putting a node at a place -/

/-- Changing a member replaces the reference in one place. -/
theorem setMember_eq {r : Ref} {label : Label} {kids : List (Option Ref)}
    (hr : s.get r = .node label kids) {i : Nat} {m : Member}
    (hm : label.kind.members[i]? = some m) (e : Option Ref) :
    s.setMember r m e = s.refill r (kids.set i e) := by
  simp only [Store.setMember, Store.refill, hr, Kind.idxOf_members hm, Cell.refill]

/-- What is written under the name of a field is converted to what the field may hold, and put into
the member at the position of the field. -/
theorem setChild_field {r : Ref} {label : Label} {kids : List (Option Ref)} {f : Field} {i : Nat}
    (hr : s.get r = .node label kids) (hf : label.fields[i]? = some f) (e : Element) :
    ∃ m c, label.kind.members[i]? = some m ∧ c.Suits f ∧
      s.setChild r f.name e =
        (s.convert label.kind f.name c e).map fun p => p.2.setMember r m p.1 := by
  obtain ⟨m, c, hm, hwrites, hsuits⟩ := Kind.writes?_position hf
  refine ⟨m, c, hm, hsuits, ?_⟩
  have hkind : s.kind? r = some label.kind := by rw [Store.kind?, Store.label?, hr, Option.map_some]
  simp only [Store.setChild, hkind, hwrites]
  cases s.convert label.kind f.name c e <;> rfl

/-- What a field may hold is written into it, which replaces the reference in one place. -/
theorem setChild_ref {r x : Ref} {label : Label} {kids : List (Option Ref)} {f : Field} {i : Nat}
    (hr : s.get r = .node label kids) (hf : label.fields[i]? = some f)
    (htakes : f.takes (s.kind? x) = true) :
    s.setChild r f.name (.ref x) = .ok (s.refill r (kids.set i (some x))) := by
  obtain ⟨m, c, hm, hsuits, hset⟩ := setChild_field hr hf (.ref x)
  rw [hset, Store.convert, hsuits, htakes, if_pos rfl]
  exact congrArg _ (setMember_eq hr hm _)

/-- A node put at a place that holds a node of the same categories takes its place. -/
theorem apply_put (ht : s.Typed strict) {parent : Cursor} {key : Key} {holder r n : Ref}
    (heditable : editableParent (some pool) s (.step parent key (some n)) = .ok holder)
    (hholds : s.HoldsAt holder key r) (hr : s.isList r = false) (hn : s.isList n = false)
    (hcategory : ∀ category, s.isIn category (some r) = true → s.isIn category (some n) = true) :
    ∃ i, (s.below holder)[i]? = some (some r) ∧
      (put (.step parent key (some r)) (some n)).apply (some pool) s =
        (s.refill holder ((s.below holder).set i (some n)), none) := by
  obtain ⟨i, hi⟩ := List.mem_iff_getElem?.mp hholds
  obtain ⟨hkey, hbelow⟩ := List.getElem?_zip_eq_some.mp hi
  refine ⟨i, hbelow, ?_⟩
  have hfresh : Cursor.node? s (.step parent key (some n)) = some n := by
    simp [Cursor.node?, Cursor.element, hn]
  suffices happly : applyReplace (some pool) s (.step parent key (some n)) =
      .ok (s.refill holder ((s.below holder).set i (some n))) by
    simp only [put, Cursor.withElement, apply, happly]
  simp only [applyReplace, hfresh, heditable, Except.mapError, bind, Except.bind, pure,
    Except.pure, Option.isNone_some, Bool.false_eq_true, if_false]
  rw [Store.keys] at hkey
  rw [Store.below] at hbelow ⊢
  cases hget : s.get holder with
  | list items =>
    -- the key is the position itself
    rw [hget] at hkey hbelow
    have hlt : i < items.length := (List.getElem?_eq_some_iff.mp hbelow).1
    have hposition : Cursor.position (.step parent key (some n)) = i := by
      simp only [List.getElem?_map, List.getElem?_range hlt, Option.map_some,
        Option.some.injEq] at hkey
      rw [← hkey]
      rfl
    have hitems : s.itemsOf (some holder) = items := by
      simp [Store.itemsOf, Store.items?, hget]
    simp [Store.isList, hget, Store.setItem?, hposition, hitems, hlt, Store.refill, Cell.refill,
      Cell.below]
  | node label kids =>
    rw [hget] at hkey hbelow
    obtain ⟨f, hf, rfl⟩ : ∃ f, label.fields[i]? = some f ∧ Key.field f.name = key := by
      simpa [List.getElem?_map, Option.map_eq_some_iff] using hkey
    have htyped := ht holder label kids hget
    have hadmits := htyped.admits (f, some r)
      (List.mem_iff_getElem?.mpr ⟨i, List.getElem?_zip_eq_some.mpr ⟨hf, hbelow⟩⟩)
    obtain ⟨hsingle, hin⟩ := (Store.admits_node (f := f) hr).mp hadmits
    have htakes : f.takes (s.kind? n) = true := by
      simpa [Field.takes, hsingle, Store.isIn] using hcategory _ hin
    have hname : Cursor.fieldName (.step parent (.field f.name) (some n)) = f.name := rfl
    simp [Store.isList, hget, hname, Element.of, setChild_ref hget hf htakes, Cell.below]

/-! ## Editing a list -/

/-- Everything below a place may be edited, and the element there is what changes. -/
def Editable (pool : Pool) (s : Store) (place : Cursor) (holder : Ref) : Prop :=
  ∀ key e, editableParent (some pool) s (.step place key e) = .ok holder

/-- A list may be edited if the node that holds it is no fragment. -/
theorem editable_list {place : Cursor} {l : Ref} (hl : place.list? s = some l)
    (howner : pool.isConstant ((place.owner? s).bind (·.node? s)) = false) :
    Editable pool s place l := by
  intro key e
  obtain ⟨helement, hlist⟩ := Option.filter_eq_some_iff.mp hl
  have hnode : place.nodePlace? s = place.owner? s := by
    cases place with
    | root e' =>
      obtain rfl : e' = some l := helement
      simp [Cursor.nodePlace?, Cursor.owner?, Cursor.parent?, hlist]
    | step parent key' e' =>
      obtain rfl : e' = some l := helement
      simp [Cursor.nodePlace?, Cursor.owner?, Cursor.parent?, hlist]
  have hconstant :
      pool.isConstant ((Cursor.owner? s (.step place key e)).bind (·.node? s)) = false := by
    rw [Cursor.owner?, Cursor.parent?, Option.bind_some, hnode, howner]
  simp [editableParent, Cursor.parent?, helement, hconstant]

theorem Editable.refill {place : Cursor} {l : Ref} (h : Editable pool s place l) (x : Ref)
    (kids : List (Option Ref)) : Editable pool (s.refill x kids) place l :=
  fun key e => editableParent_congr (s.isList_refill x kids) (h key e)

theorem apply_put_item {place : Cursor} {l n : Ref} (h : Editable pool s place l)
    {items : List (Option Ref)} (hl : s.get l = .list items) (hn : s.isList n = false) {i : Nat}
    (hi : i < items.length) (u : Store) :
    (put (place.index u i) (some n)).apply (some pool) s =
      (s.refill l (items.set i (some n)), none) := by
  have hfresh : Cursor.node? s (.step place (.index i) (some n)) = some n := by
    simp [Cursor.node?, Cursor.element, hn]
  have hposition : Cursor.position (.step place (.index i) (some n)) = i := rfl
  have hitems : s.itemsOf (some l) = items := by simp [Store.itemsOf, Store.items?, hl]
  suffices happly : applyReplace (some pool) s (.step place (.index i) (some n)) =
      .ok (s.refill l (items.set i (some n))) by
    simp only [put, Cursor.index, Cursor.child, Cursor.withElement, apply, happly]
  simp [applyReplace, hfresh, h _ (some n), Except.mapError, bind, Except.bind, pure, Except.pure,
    Store.isList, hl, Store.setItem?, hposition, hitems, hi, Store.refill, Cell.refill]

theorem apply_remove_item {place : Cursor} {l : Ref} (h : Editable pool s place l)
    {items : List (Option Ref)} (hl : s.get l = .list items) {i : Nat} (hi : i < items.length)
    (u : Store) :
    (Edit.remove (place.index u i)).apply (some pool) s =
      (s.refill l (items.eraseIdx i), none) := by
  have hposition : ∀ e, Cursor.position (.step place (.index i) e) = i := fun _ => rfl
  have hitems : s.itemsOf (some l) = items := by simp [Store.itemsOf, Store.items?, hl]
  suffices happly : ∀ e, applyRemove (some pool) s (.step place (.index i) e) =
      .ok (s.refill l (items.eraseIdx i)) by
    simp only [Cursor.index, Cursor.child, apply, happly]
  intro e
  simp [applyRemove, h _ e, Except.mapError, bind, Except.bind, pure, Except.pure, Store.isList,
    hl, Store.removeItem?, hposition, hitems, hi, Store.refill, Cell.refill]

theorem get_refill_list {l : Ref} {items : List (Option Ref)} (hl : s.get l = .list items)
    (kids : List (Option Ref)) : (s.refill l kids).get l = .list kids := by
  have hcell : ∃ n, l = .cell n ∧ n < s.cells.size := by
    cases l with
    | emptyStatement => simp at hl
    | null => simp at hl
    | cell n =>
      refine ⟨n, rfl, ?_⟩
      by_contra hn
      rw [Store.get_unknown (by simpa [Store.Known] using hn)] at hl
      cases hl
  rw [Store.get_refill_self kids hcell, hl]
  rfl

theorem refill_refill_list {l : Ref} {items : List (Option Ref)} (hl : s.get l = .list items)
    (kids kids' : List (Option Ref)) : (s.refill l kids).refill l kids' = s.refill l kids' := by
  rw [Store.refill, get_refill_list hl, Store.refill, Store.set_set, Store.refill, hl]
  rfl

/-- Removals at positions that go down. -/
theorem applyAll_removes {place : Cursor} {l : Ref} (h : Editable pool s place l)
    {items : List (Option Ref)} (hl : s.get l = .list items) {ds : List Nat}
    (hds : ds.Pairwise (· > ·)) (hlt : ∀ i ∈ ds, i < items.length) (u : Store)
    (position : Nat) :
    applyAll (some pool) s position (ds.map fun i : Nat => .remove (place.index u i)) =
      (s.refill l (ds.foldl List.eraseIdx items), none) := by
  induction ds generalizing s items position with
  | nil =>
    have hbelow : s.below l = items := by rw [Store.below, hl]; rfl
    rw [List.map_nil, applyAll, List.foldl_nil, ← hbelow, Store.refill_below]
  | cons d ds ih =>
    rw [List.pairwise_cons] at hds
    have hd : d < items.length := hlt d List.mem_cons_self
    rw [List.map_cons, applyAll, apply_remove_item h hl hd u]
    have hrest : ∀ i ∈ ds, i < (items.eraseIdx d).length := by
      intro i hi
      have := hds.1 i hi
      rw [List.length_eraseIdx_of_lt hd]
      omega
    show applyAll _ _ _ _ = _
    rw [ih (h.refill l _) (get_refill_list hl _) hds.2 hrest (position + 1),
      refill_refill_list hl, List.foldl_cons]

/-- Removing positions of a list takes out the items that stand there. -/
theorem apply_removeAll {place : Cursor} {l : Ref} (h : Editable pool s place l)
    {items : List (Option Ref)} (hl : s.get l = .list items) {ps : List Nat}
    (hlt : ∀ i ∈ ps, i < items.length) (u : Store) :
    (removeAll u place (ps.map fun i : Nat => (i : Int))).apply (some pool) s =
      (s.refill l (without ps 0 items), none) := by
  obtain ⟨ds, hds, hmem, hsorted⟩ := exists_descending ps
  have hremove := applyAll_removes h hl hds (fun i hi => hlt i ((hmem i).mp hi)) u 0
  simp only [removeAll_eq, hsorted, List.map_map, apply, Function.comp_def]
  rw [hremove, foldl_eraseIdx hds, without_congr fun i _ _ => hmem i]

theorem applyAll_append {t : Store} {position : Nat} {edits : List Edit}
    (h : applyAll (some pool) s position edits = (t, none)) (more : List Edit) :
    applyAll (some pool) s position (edits ++ more) =
      applyAll (some pool) t (position + edits.length) more := by
  induction edits generalizing s position with
  | nil =>
    obtain rfl : s = t := by simpa [applyAll] using h
    simp
  | cons edit rest ih =>
    rw [applyAll] at h
    rw [List.cons_append, applyAll]
    cases hedit : apply (some pool) s edit with
    | mk u failure =>
      cases failure with
      | some failure => simp [hedit] at h
      | none =>
        simp only [hedit] at h ⊢
        rw [ih h]
        congr 1
        simp only [List.length_cons]
        omega

end Edit

end ScriptSimplifier
