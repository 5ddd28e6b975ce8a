import Mathlib.Data.List.Basic
import ScriptSimplifier.Cursor
import ScriptSimplifier.Proofs.Store.Census
import ScriptSimplifier.Proofs.Store.Typing
import ScriptSimplifier.Proofs.Syntax.Members

/-!
# Places of a tree

A cursor is *live* in a store if it names an element of the tree below a root and the way to it, as
the store is now.  Refreshing a cursor gives a live one, and finds every live one that differs only
in list positions (`refresh_live`, `Live.refresh`).  An element that is reached only once has one
live cursor (`Live.unique`).
-/

namespace ScriptSimplifier

namespace Store

/-! ## Keys -/

/-- The keys of the places of an element. -/
def keys (s : Store) (r : Ref) : List Key :=
  match s.get r with
  | .node label _ => label.fields.map fun f => .field f.name
  | .list items => (List.range items.length).map fun i : Nat => .index i

/-- The places of an element: their keys and what they hold. -/
def places (s : Store) (r : Ref) : List (Key × Option Ref) := (s.keys r).zip (s.below r)

theorem nodup_keys (s : Store) (r : Ref) : (s.keys r).Nodup := by
  rw [keys]
  cases s.get r with
  | node label kids =>
    have hnames := label.kind.nodup_names
    have hfields : (label.fields.map fun f => Key.field f.name) =
        (label.fields.map (·.name)).map Key.field := List.map_map.symm
    show (label.fields.map fun f => Key.field f.name).Nodup
    rw [hfields]
    exact hnames.map fun _ _ heq => Key.field.inj heq
  | list items =>
    refine List.Nodup.map ?_ List.nodup_range
    intro i j hij
    exact Int.ofNat.inj (Key.index.inj hij)

variable {s : Store} {strict : Strictness}

/-- Every node has one place for each field of its kind. -/
def Shaped (s : Store) : Prop :=
  ∀ r label kids, s.get r = .node label kids → kids.length = label.fields.length

theorem Typed.shaped (ht : s.Typed strict) : s.Shaped :=
  fun r label kids hr => (ht r label kids hr).length

theorem Shaped.length_keys (hs : s.Shaped) (r : Ref) :
    (s.keys r).length = (s.below r).length := by
  rw [keys, below]
  cases hr : s.get r with
  | node label kids => simpa [Cell.below] using (hs r label kids hr).symm
  | list items => simp [Cell.below]

/-- The child in a field is what the node holds at the position of that field. -/
theorem child_field {r : Ref} {label : Label} {kids : List (Option Ref)}
    (hr : s.get r = .node label kids) {f : Field} {i : Nat} (hf : label.fields[i]? = some f) :
    s.child r f.name = (kids[i]?).join := by
  obtain ⟨m, hm, hread⟩ := Kind.reads?_position hf
  rw [child_node hr, hread, Option.bind_some, Kind.idxOf_members hm]

/-- The element below a key is what the place with that key holds. -/
theorem elementBelow_eq {r : Ref} {key : Key} {e : Option Ref} (h : (key, e) ∈ s.places r) :
    Cursor.elementBelow s (some r) key = e := by
  rw [places, keys, below] at h
  cases hr : s.get r with
  | node label kids =>
    simp only [hr, Cell.below, List.zip_map_left, List.mem_map] at h
    obtain ⟨⟨f, e'⟩, hmem, heq⟩ := h
    obtain ⟨rfl, rfl⟩ := Prod.mk.inj heq
    obtain ⟨i, hi⟩ := List.mem_iff_getElem?.mp hmem
    obtain ⟨hf, he⟩ := List.getElem?_zip_eq_some.mp hi
    show s.child r f.name = e'
    rw [child_field hr hf, he, Option.join_some]
  | list items =>
    simp only [hr, Cell.below, List.zip_map_left, List.mem_map] at h
    obtain ⟨⟨i, e'⟩, hmem, heq⟩ := h
    obtain ⟨rfl, rfl⟩ := Prod.mk.inj heq
    obtain ⟨j, hj⟩ := List.mem_iff_getElem?.mp hmem
    obtain ⟨hi, he⟩ := List.getElem?_zip_eq_some.mp hj
    have hij : j = i := by
      have hlt : j < items.length := by
        rw [← List.length_range (n := items.length)]
        exact (List.getElem?_eq_some_iff.mp hi).1
      rw [List.getElem?_range hlt] at hi
      exact Option.some.inj hi
    subst hij
    simp [Cursor.elementBelow, itemAt?, itemsOf, items?, hr, he]

/-- What a list has once, it has at one position. -/
theorem index_unique {α : Type*} [BEq α] [LawfulBEq α] {l : List α} {a : α} (h : l.count a ≤ 1)
    {i j : Nat} (hi : l[i]? = some a) (hj : l[j]? = some a) : i = j := by
  induction l generalizing i j with
  | nil => simp at hi
  | cons b rest ih =>
    have hmem : ∀ {k}, rest[k]? = some a → 0 < rest.count a := fun hk =>
      List.count_pos_iff.mpr (List.mem_of_getElem? hk)
    rw [List.count_cons] at h
    cases i with
    | zero =>
      obtain rfl : b = a := by simpa using hi
      cases j with
      | zero => rfl
      | succ j =>
        have := hmem (by simpa using hj)
        simp at h
        omega
    | succ i =>
      cases j with
      | zero =>
        obtain rfl : b = a := by simpa using hj
        have := hmem (by simpa using hi)
        simp at h
        omega
      | succ j => exact congrArg (· + 1) (ih (by omega) (by simpa using hi) (by simpa using hj))

/-- One element holds another in the place with a key. -/
def HoldsAt (s : Store) (r : Ref) (key : Key) (c : Ref) : Prop := (key, some c) ∈ s.places r

theorem HoldsAt.holds {r c : Ref} {key : Key} (h : s.HoldsAt r key c) : s.Holds r c :=
  (List.of_mem_zip h).2

theorem Shaped.holdsAt_of_holds (hs : s.Shaped) {r c : Ref} (h : s.Holds r c) :
    ∃ key, s.HoldsAt r key c := by
  obtain ⟨i, hi⟩ := List.mem_iff_getElem?.mp h
  have hlt : i < (s.keys r).length := by
    rw [hs.length_keys]
    exact (List.getElem?_eq_some_iff.mp hi).1
  refine ⟨(s.keys r)[i], List.mem_iff_getElem?.mpr ⟨i, ?_⟩⟩
  exact List.getElem?_zip_eq_some.mpr ⟨List.getElem?_eq_getElem hlt, hi⟩

/-- What an element holds once, it holds under one key. -/
theorem HoldsAt.unique {r c : Ref} {key key' : Key} (h : s.HoldsAt r key c)
    (h' : s.HoldsAt r key' c) (hcount : (s.below r).count (some c) ≤ 1) : key = key' := by
  obtain ⟨i, hi⟩ := List.mem_iff_getElem?.mp h
  obtain ⟨j, hj⟩ := List.mem_iff_getElem?.mp h'
  obtain ⟨hki, hbi⟩ := List.getElem?_zip_eq_some.mp hi
  obtain ⟨hkj, hbj⟩ := List.getElem?_zip_eq_some.mp hj
  have hij : i = j := index_unique hcount hbi hbj
  rw [hij, hkj] at hki
  exact (Option.some.inj hki).symm

theorem Shaped.places_fst (hs : s.Shaped) (r : Ref) :
    (s.places r).map Prod.fst = s.keys r :=
  List.map_fst_zip (by rw [hs.length_keys])

theorem Shaped.places_snd (hs : s.Shaped) (r : Ref) :
    (s.places r).map Prod.snd = s.below r :=
  List.map_snd_zip (by rw [hs.length_keys])

/-- The places one step down from a cursor have the keys of its element. -/
theorem children_eq_keys {c : Cursor} {r : Ref} (hc : c.element = some r) :
    c.children s = (s.keys r).map (c.child s) := by
  rw [Cursor.children, hc, keys]
  cases hr : s.get r with
  | node label kids => simp [hr, Cursor.field, Function.comp_def]
  | list items => simp [hr, Cursor.index, Function.comp_def]

/-- The places one step down from a cursor are those of its element. -/
theorem Shaped.children_eq (hs : s.Shaped) {c : Cursor} {r : Ref} (hc : c.element = some r) :
    c.children s = (s.places r).map fun p => .step c p.1 p.2 := by
  rw [children_eq_keys hc, ← hs.places_fst, List.map_map]
  refine List.map_congr_left fun p hp => ?_
  show Cursor.step c p.1 (Cursor.elementBelow s c.element p.1) = _
  have hbelow : Cursor.elementBelow s (some r) p.1 = p.2 := elementBelow_eq hp
  rw [hc, hbelow]

theorem holdsAt_field {r c : Ref} {name : String} (hlist : s.isList r = false)
    (h : s.child r name = some c) : s.HoldsAt r (.field name) c := by
  cases hr : s.get r with
  | list items => simp [isList, hr] at hlist
  | node label kids =>
    rw [child_node hr] at h
    obtain ⟨m, hread, hkid⟩ := Option.bind_eq_some_iff.mp h
    obtain ⟨f, rfl, hf⟩ := Kind.position_of_reads? hread
    simp only [HoldsAt, places, keys, below, hr, Cell.below, List.zip_map_left, List.mem_map]
    have hpair : (label.fields.zip kids)[label.kind.members.idxOf m]? = some (f, some c) :=
      List.getElem?_zip_eq_some.mpr ⟨hf, Option.join_eq_some_iff.mp hkid⟩
    exact ⟨(f, some c), List.mem_of_getElem? hpair, rfl⟩

theorem holdsAt_index {r c : Ref} {i : Int} (hlist : s.isList r = true)
    (h : s.itemAt? r i = some (some c)) : s.HoldsAt r (.index i) c := by
  cases hr : s.get r with
  | node label kids => simp [isList, hr] at hlist
  | list items =>
    simp only [itemAt?, itemsOf, items?, hr, Option.bind_some, Option.getD_some] at h
    split at h
    · rename_i hi
      have hlt := (List.getElem?_eq_some_iff.mp h).1
      simp only [HoldsAt, places, keys, below, hr, Cell.below, List.zip_map_left, List.mem_map]
      refine ⟨(i.toNat, some c), ?_, by simp [Int.toNat_of_nonneg hi]⟩
      refine List.mem_iff_getElem?.mpr ⟨i.toNat, ?_⟩
      exact List.getElem?_zip_eq_some.mpr ⟨List.getElem?_range hlt, h⟩
    · simp at h

/-- What a key says about the element that has it. -/
theorem HoldsAt.isList {r c : Ref} {key : Key} (h : s.HoldsAt r key c) :
    s.isList r = (match key with | .field _ => false | .index _ => true) := by
  have hkey := (List.of_mem_zip h).1
  rw [keys] at hkey
  cases hr : s.get r with
  | node label kids =>
    simp only [hr, List.mem_map] at hkey
    obtain ⟨f, _, rfl⟩ := hkey
    simp [Store.isList, hr]
  | list items =>
    simp only [hr, List.mem_map] at hkey
    obtain ⟨i, _, rfl⟩ := hkey
    simp [Store.isList, hr]

end Store

/-- A key without the position. -/
def Key.loose : Key → Key
  | .field name => .field name
  | .index _ => .index 0

namespace Cursor

/-! ## Steps down -/

/-- What is found one step below an element is held by it. -/
theorem holds_elementBelow {s : Store} {r x : Ref} {key : Key}
    (h : elementBelow s (some r) key = some x) :
    s.Holds r x := by
  cases key with
  | field name => exact Store.holds_child h
  | index i => exact Store.holds_item (Option.join_eq_some_iff.mp h)

theorem mem_children {s : Store} {c d : Cursor} (hd : d ∈ c.children s) :
    ∃ key, d = c.child s key := by
  cases hr : c.element with
  | none => rw [children, hr] at hd; cases hd
  | some r =>
    rw [Store.children_eq_keys hr] at hd
    obtain ⟨key, -, rfl⟩ := List.mem_map.mp hd
    exact ⟨key, rfl⟩

/-- The places one step down are different ones. -/
theorem nodup_children (s : Store) (c : Cursor) : (c.children s).Nodup := by
  cases hr : c.element with
  | none => rw [children, hr]; exact List.nodup_nil
  | some r =>
    rw [Store.children_eq_keys hr]
    exact (s.nodup_keys r).map fun _ _ heq => (Cursor.step.inj heq).2.1

/-! ## Live cursors -/

/-- The cursor starts at the root and has no negative list position. -/
def Proper (root : Ref) : Cursor → Prop
  | .root e => e = some root
  | .step parent key _ => parent.Proper root ∧ ∀ i, key = .index i → 0 ≤ i

/-- Every element on the way is held by the one above it. -/
def Live (s : Store) (root : Ref) : Cursor → Prop
  | .root e => e = some root
  | .step parent key e =>
    parent.Live s root ∧ ∃ r c, parent.element = some r ∧ e = some c ∧ s.HoldsAt r key c

/-- The way to a place without the positions in lists. -/
def track : Cursor → Cursor
  | .root e => .root e
  | .step parent key e => .step parent.track key.loose e

@[simp] theorem element_track (c : Cursor) : c.track.element = c.element := by
  cases c <;> rfl

variable {s : Store} {root : Ref} {strict : Strictness}

theorem Live.element_isSome {c : Cursor} (h : c.Live s root) : ∃ r, c.element = some r := by
  cases c with
  | root e => exact ⟨root, h⟩
  | step parent key e =>
    obtain ⟨_, _, r, _, rfl, _⟩ := h
    exact ⟨r, rfl⟩

theorem Live.reaches {c : Cursor} (h : c.Live s root) {r : Ref} (hr : c.element = some r) :
    s.Reaches root r := by
  induction c generalizing r with
  | root e =>
    obtain rfl : root = r := Option.some.inj (h.symm.trans hr)
    exact Relation.ReflTransGen.refl
  | step parent key e ih =>
    obtain ⟨hparent, p, c, hp, rfl, hholds⟩ := h
    obtain rfl : c = r := Option.some.inj hr
    exact Relation.ReflTransGen.tail (ih hparent hp) hholds.holds

theorem index_nonneg {r : Ref} {i : Int} {e : Option Ref} (h : (Key.index i, e) ∈ s.places r) :
    0 ≤ i := by
  have hkey := (List.of_mem_zip h).1
  rw [Store.keys] at hkey
  cases hr : s.get r with
  | node label kids => simp [hr] at hkey
  | list items =>
    simp only [hr, List.mem_map] at hkey
    obtain ⟨n, _, hn⟩ := hkey
    obtain rfl := Key.index.inj hn
    omega

theorem Live.proper {c : Cursor} (h : c.Live s root) : c.Proper root := by
  induction c with
  | root e => exact h
  | step parent key e ih =>
    obtain ⟨hparent, r, c, _, rfl, hholds⟩ := h
    refine ⟨ih hparent, ?_⟩
    rintro i rfl
    exact index_nonneg hholds

/-- The places of the tree: the root, and what is found from there by fields and positions. -/
inductive Within (s : Store) (root : Ref) : Cursor → Prop
  | root : Within s root (.root (some root))
  | child {c d : Cursor} : Within s root c → d ∈ c.children s → Within s root d

/-- A place of the tree that holds something is live. -/
theorem Within.live (ht : s.Typed strict) {c : Cursor} (h : c.Within s root)
    (hc : c.element.isSome = true) : c.Live s root := by
  induction h with
  | root => rfl
  | @child c d _ hd ih =>
    cases hr : c.element with
    | none => simp [children, hr] at hd
    | some r =>
      rw [ht.shaped.children_eq hr] at hd
      obtain ⟨p, hp, rfl⟩ := List.mem_map.mp hd
      obtain ⟨x, hx⟩ := Option.isSome_iff_exists.mp hc
      have hpx : p.2 = some x := hx
      exact ⟨ih (by simp [hr]), r, x, hr, hpx, (hpx ▸ hp : (p.1, some x) ∈ s.places r)⟩

/-! ## Refreshing -/

theorem itemAt?_of_indexOf? {l : Ref} {e : Option Ref} {j : Nat}
    (h : s.indexOf? l e = some j) : s.itemAt? l j = some e := by
  obtain ⟨hlt, hget, _⟩ := List.idxOf?_eq_some_iff.mp h
  simp [Store.itemAt?, List.getElem?_eq_getElem hlt, hget]

/-- A list item is found where it is. -/
theorem refreshItem_ok {l x : Ref} {i j : Int} (h : refreshItem s l x i = .ok j) :
    s.itemAt? l j = some (some x) := by
  rw [refreshItem] at h
  split at h
  · simp at h
  · split at h
    · rename_i hat
      obtain rfl : i = j := by simpa using h
      exact hat
    · split at h
      · rename_i k hk
        obtain rfl : (k : Int) = j := by simpa using h
        exact itemAt?_of_indexOf? hk
      · simp at h

/-- What refreshing a cursor does at each step: a field has to hold the element still, and a list
item is found again where it is now. -/
inductive Refreshes (s : Store) : Cursor → Cursor → Prop
  | root (e : Option Ref) : Refreshes s (.root e) (.root e)
  | field {parent p : Cursor} {r : Ref} {name : String} {e : Option Ref} :
      Refreshes s parent p → p.element = some r → s.isList r = false → s.child r name = e →
      Refreshes s (.step parent (.field name) e) (.step p (.field name) e)
  | index {parent p : Cursor} {r x : Ref} {i j : Int} :
      Refreshes s parent p → p.element = some r → s.isList r = true → s.isList x = false →
      refreshItem s r x i = .ok j →
      Refreshes s (.step parent (.index i) (some x)) (.step p (.index j) (some x))

theorem Refreshes.refresh {c c' : Cursor} (h : Refreshes s c c') : c.refresh s = .ok c' := by
  induction h with
  | root e => rfl
  | field _ hr hnode hchild ih =>
    simp [Cursor.refresh, ih, hr, hnode, hchild, bind, Except.bind, pure, Except.pure]
  | index _ hr hlist hnode hitem ih =>
    simp [Cursor.refresh, ih, hr, hlist, hnode, hitem, bind, Except.bind, pure, Except.pure]

theorem refreshes_of_refresh {c c' : Cursor} (h : c.refresh s = .ok c') : Refreshes s c c' := by
  induction c generalizing c' with
  | root e =>
    obtain rfl := Except.ok.inj h
    exact .root e
  | step parent key e ih =>
    cases hparent : parent.refresh s with
    | error stale => simp [Cursor.refresh, hparent, bind, Except.bind] at h
    | ok p =>
      simp only [Cursor.refresh, hparent, bind, Except.bind] at h
      split at h
      · rename_i r i hr
        cases e with
        | none => cases h
        | some x =>
          dsimp only at h
          split at h
          · rename_i hlists
            cases hitem : refreshItem s r x i with
            | error stale => simp [hitem] at h
            | ok j =>
              rw [hitem] at h
              obtain rfl := Except.ok.inj h
              exact .index (ih hparent) hr hlists.1 (by simpa using hlists.2) hitem
          · cases h
      · rename_i r name hr
        split at h
        · rename_i hchild
          obtain rfl := Except.ok.inj h
          exact .field (ih hparent) hr (by simpa using hchild.1) hchild.2
        · cases h
      · cases h

theorem refresh_of_refresh? {c c' : Cursor} (h : c.refresh? s = some c') :
    c.refresh s = .ok c' := by
  unfold refresh? at h
  cases hrefresh : c.refresh s with
  | error stale =>
    rw [hrefresh] at h
    cases h
  | ok d =>
    rw [hrefresh] at h
    exact congrArg Except.ok (Option.some.inj h)

/-- A refreshed cursor is the same way to the same element, and live. -/
theorem refresh_live {c c' : Cursor} (hc : c.Proper root) (h : c.refresh s = .ok c') :
    c'.element = c.element ∧ c'.track = c.track ∧ c'.Proper root ∧
      (c.element.isSome = true → c'.Live s root) := by
  -- what is above is refreshed first and stays at the same element
  induction refreshes_of_refresh h with
  | root e => exact ⟨rfl, rfl, hc, fun _ => hc⟩
  | @field parent p r name e hparent hr hnode hchild ih =>
    obtain ⟨hp, htrack, hproper, hlive⟩ := ih hc.1 hparent.refresh
    have hplive : p.Live s root := hlive (by rw [← hp, hr]; rfl)
    refine ⟨rfl, by simp [track, htrack], ⟨hproper, by simp⟩, fun he => ?_⟩
    obtain ⟨x, rfl⟩ := Option.isSome_iff_exists.mp he
    exact ⟨hplive, r, x, hr, rfl, Store.holdsAt_field hnode hchild⟩
  | @index parent p r x i j hparent hr hlist _ hitem ih =>
    obtain ⟨hp, htrack, hproper, hlive⟩ := ih hc.1 hparent.refresh
    have hplive : p.Live s root := hlive (by rw [← hp, hr]; rfl)
    -- the item may have moved: the track forgets positions, and the element is the same
    have hholds := Store.holdsAt_index hlist (refreshItem_ok hitem)
    refine ⟨rfl, by simp [track, htrack, Key.loose], ⟨hproper, ?_⟩, fun _ => ?_⟩
    · rintro k hk
      obtain rfl := Key.index.inj hk
      exact index_nonneg hholds
    · exact ⟨hplive, r, x, hr, rfl, hholds⟩

/-- An item of a list can be found from any position. -/
theorem exists_refreshItem {l x : Ref} {i : Int} (hi : 0 ≤ i)
    (h : some x ∈ s.itemsOf (some l)) : ∃ j, refreshItem s l x i = .ok j := by
  rw [refreshItem, if_neg (by omega)]
  split
  · exact ⟨i, rfl⟩
  · have hfound : (s.indexOf? l (some x)).isSome := List.isSome_idxOf?.mpr h
    obtain ⟨j, hj⟩ := Option.isSome_iff_exists.mp hfound
    exact ⟨j, by rw [hj]⟩

/-- The items of a list in the tree are nodes of one category. -/
theorem Live.items_isIn (ht : s.Typed strict) (hroot : s.isList root = false) {c : Cursor}
    (hc : c.Live s root) {l : Ref} (hl : c.element = some l) {items : List (Option Ref)}
    (hitems : s.get l = .list items) :
    ∃ category : Category, ∀ e ∈ items, s.isIn category e = true := by
  induction c generalizing l items with
  | root e =>
    obtain rfl : root = l := Option.some.inj (hc.symm.trans hl)
    simp [Store.isList, hitems] at hroot
  | step parent key e ih =>
    obtain ⟨hparent, p, c, hp, rfl, hholds⟩ := hc
    obtain rfl : c = l := Option.some.inj hl
    cases hget : s.get p with
    | list outer =>
      -- an item of a list in the tree is a node
      obtain ⟨category, hcategory⟩ := ih hparent hp hget
      have hmem : some c ∈ outer := by
        have := hholds.holds
        rwa [Store.Holds, Store.below, hget] at this
      obtain ⟨r, label, kids, hr, hnode, _⟩ := Store.isIn_iff.mp (hcategory _ hmem)
      rw [← Option.some.inj hr, hitems] at hnode
      cases hnode
    | node label kids =>
      have hmem : some c ∈ kids := by
        have := hholds.holds
        rwa [Store.Holds, Store.below, hget] at this
      have htyped := ht p label kids hget
      obtain ⟨i, hi⟩ := List.mem_iff_getElem?.mp hmem
      have hlt : i < label.fields.length := by
        rw [← htyped.length]
        exact (List.getElem?_eq_some_iff.mp hi).1
      have hadmits := htyped.admits (label.fields[i], some c)
        (List.mem_iff_getElem?.mpr ⟨i, List.getElem?_zip_eq_some.mpr
          ⟨List.getElem?_eq_getElem hlt, hi⟩⟩)
      simp only [Store.admits, hitems, Bool.and_eq_true, List.all_eq_true] at hadmits
      exact ⟨_, hadmits.2⟩

/-- An item of a list in the tree is a node. -/
theorem Live.item_isNode (ht : s.Typed strict) (hroot : s.isList root = false) {c : Cursor}
    (hc : c.Live s root) {r x : Ref} (hr : c.element = some r) {i : Int}
    (hholds : s.HoldsAt r (.index i) x) : s.isList x = false := by
  have hlist := hholds.isList
  cases hget : s.get r with
  | node label kids => simp [Store.isList, hget] at hlist
  | list items =>
    obtain ⟨category, hcategory⟩ := hc.items_isIn ht hroot hr hget
    have hmem := hholds.holds
    rw [Store.Holds, Store.below, hget] at hmem
    obtain ⟨r', label, kids, hr', hnode, _⟩ := Store.isIn_iff.mp (hcategory _ hmem)
    rw [← Option.some.inj hr'] at hnode
    simp [Store.isList, hnode]

/-- A list of the tree stands in a field of a node. -/
theorem Live.list_parent (ht : s.Typed strict) (hroot : s.isList root = false) {c : Cursor}
    (hc : c.Live s root) {l : Ref} (hl : c.element = some l) (hlist : s.isList l = true) :
    ∃ p name o, c = .step p (.field name) (some l) ∧ p.Live s root ∧ p.element = some o ∧
      s.isList o = false ∧ s.HoldsAt o (.field name) l := by
  cases c with
  | root e =>
    obtain rfl : root = l := Option.some.inj (hc.symm.trans hl)
    rw [hroot] at hlist
    simp at hlist
  | step parent key e =>
    obtain ⟨hparent, o, x, ho, rfl, hholds⟩ := hc
    obtain rfl : x = l := Option.some.inj hl
    cases key with
    | index i =>
      rw [hparent.item_isNode ht hroot ho hholds] at hlist
      simp at hlist
    | field name => exact ⟨parent, name, o, rfl, hparent, ho, hholds.isList, hholds⟩

/-- A cursor that leads the same way as a live one can be refreshed. -/
theorem Live.refresh (ht : s.Typed strict) (hroot : s.isList root = false) {c d : Cursor}
    (hc : c.Live s root) (hd : d.Proper root) (htrack : d.track = c.track) :
    ∃ c', d.refresh s = .ok c' := by
  -- along both cursors: with the same track, one has a field where the other one has it
  induction d generalizing c with
  | root e => exact ⟨.root e, rfl⟩
  | step parent key e ih =>
    cases c with
    | root e' => simp [track] at htrack
    | step parent' key' e' =>
      obtain ⟨hparent, hkey, rfl⟩ := Cursor.step.inj htrack
      obtain ⟨hlive, r, x, hr, rfl, hholds⟩ := hc
      obtain ⟨p, hp⟩ := ih hlive hd.1 hparent
      obtain ⟨hpe, hptrack, -, -⟩ := refresh_live hd.1 hp
      have hpr : p.element = some r := by
        rw [← element_track, hptrack, hparent, element_track, hr]
      have hlist := hholds.isList
      have hrefreshes := refreshes_of_refresh hp
      cases key' with
      | field name =>
        obtain rfl : key = .field name := by
          cases key with
          | field name' => simpa [Key.loose] using hkey
          | index i => simp [Key.loose] at hkey
        have hchild : s.child r name = some x := Store.elementBelow_eq hholds
        exact ⟨_, (Refreshes.field hrefreshes hpr hlist hchild).refresh⟩
      | index j =>
        obtain ⟨i, rfl⟩ : ∃ i, key = .index i := by
          cases key with
          | field name' => simp [Key.loose] at hkey
          | index i => exact ⟨i, rfl⟩
        -- the position may be out of date, so the element is looked up among all items
        have hnode := hlive.item_isNode ht hroot hr hholds
        have hmem : some x ∈ s.itemsOf (some r) := by
          cases hget : s.get r with
          | node label kids => simp [Store.isList, hget] at hlist
          | list items =>
            have hmem := hholds.holds
            rw [Store.Holds, Store.below, hget] at hmem
            simpa [Store.itemsOf, Store.items?, hget, Cell.below] using hmem
        obtain ⟨k, hk⟩ := exists_refreshItem (hd.2 i rfl) hmem
        exact ⟨_, (Refreshes.index hrefreshes hpr hlist hnode hk).refresh⟩

/-! ## One live cursor for each element -/

variable {shared : Ref → Bool}

/-- Above an element that is not shared, nothing is. -/
theorem Live.parent_own (hclosed : ∀ p c, shared p = true → s.Holds p c → shared c = true)
    {p c : Ref} (hc : shared c = false) (hholds : s.Holds p c) : shared p = false := by
  by_contra hp
  have := hclosed p c (by simpa using hp) hholds
  rw [hc] at this
  simp at this

theorem Live.mem_census (hs : s.Acyclic)
    (hclosed : ∀ p c, shared p = true → s.Holds p c → shared c = true) {c : Cursor}
    (hc : c.Live s root) {r : Ref} (hr : c.element = some r) (hown : shared r = false) :
    r ∈ s.census shared (some root) :=
  hs.mem_census hclosed (hc.reaches hr) hown

/-- Two members of a multiset without repetition contribute both to a sum over it. -/
theorem le_sum_of_mem {m : Multiset Ref} {f : Ref → Nat} {a b : Ref} (ha : a ∈ m)
    (hb : b ∈ m) (hab : a ≠ b) : f a + f b ≤ (m.map f).sum := by
  obtain ⟨m', rfl⟩ := Multiset.exists_cons_of_mem ha
  have hb' : b ∈ m' := (Multiset.mem_cons.mp hb).resolve_left (Ne.symm hab)
  obtain ⟨m'', rfl⟩ := Multiset.exists_cons_of_mem hb'
  simp only [Multiset.map_cons, Multiset.sum_cons]
  omega

theorem count_pos_of_holds {p e : Ref} (h : s.Holds p e) : 0 < (s.below p).count (some e) :=
  List.count_pos_iff.mpr h

/-- In a tree that reaches nothing twice but what is shared, every other element has one live
cursor. -/
theorem Live.unique (hs : s.Acyclic)
    (hclosed : ∀ p c, shared p = true → s.Holds p c → shared c = true)
    (hnodup : (s.census shared (some root)).Nodup) {c d : Cursor} (hc : c.Live s root)
    (hd : d.Live s root) {e : Ref} (hce : c.element = some e) (hde : d.element = some e)
    (he : shared e = false) : c = d := by
  induction c generalizing d e with
  | root ce =>
    obtain rfl : root = e := Option.some.inj (hc.symm.trans hce)
    cases d with
    | root de => rw [show ce = de from hc.trans hd.symm]
    | step parent key de =>
      -- the root would lie below itself
      obtain ⟨hparent, p, x, hp, rfl, hholds⟩ := hd
      obtain rfl : x = root := Option.some.inj hde
      exact absurd (hparent.reaches hp) (hs.not_reaches hholds.holds)
  | step parent key ce ih =>
    obtain ⟨hparent, p, x, hp, rfl, hholds⟩ := hc
    obtain rfl : x = e := Option.some.inj hce
    cases d with
    | root de =>
      obtain rfl : root = x := Option.some.inj (hd.symm.trans hde)
      exact absurd (hparent.reaches hp) (hs.not_reaches hholds.holds)
    | step parent' key' de =>
      obtain ⟨hparent', p', x', hp', rfl, hholds'⟩ := hd
      obtain rfl : x' = x := Option.some.inj hde
      have hown := parent_own hclosed he hholds.holds
      have hown' := parent_own hclosed he hholds'.holds
      have hmem := hparent.mem_census hs hclosed hp hown
      have hmem' := hparent'.mem_census hs hclosed hp' hown'
      have hholders := hs.census_holders he root
      have hone : (s.census shared (some root)).count x' ≤ 1 :=
        Multiset.nodup_iff_count_le_one.mp hnodup x'
      have hpp : p = p' := by
        by_contra hne
        have hsum := le_sum_of_mem (f := fun p => (s.below p).count (some x')) hmem hmem' hne
        have := count_pos_of_holds hholds.holds
        have := count_pos_of_holds hholds'.holds
        omega
      subst hpp
      have hparents : parent = parent' := ih hparent hparent' hp hp' hown
      have hcount : (s.below p).count (some x') ≤ 1 := by
        obtain ⟨others, hothers⟩ := Multiset.exists_cons_of_mem hmem
        rw [hothers, Multiset.map_cons, Multiset.sum_cons, ← hothers] at hholders
        omega
      rw [hparents, hholds.unique hholds' hcount]

end Cursor

end ScriptSimplifier
