import Mathlib.Algebra.BigOperators.Group.Multiset.Basic
import Mathlib.Algebra.Order.Group.Multiset
import ScriptSimplifier.Proofs.Store.Acyclic

/-!
# The census of a tree

A *tally* adds up something over every element at and below a reference, as often as it is reached.
Elements that are *shared* on purpose are left out together with all that lies below them.  The
*census* is the tally of the elements themselves.  Two facts make it useful:

* when one cell changes, every tally above it changes by what the tally of that cell changed, once
  for every time the census counts the cell (`tally_exchange`);
* an element is counted once for every place that holds it (`census_holders`), so a census without
  repetition says that the tree is a tree.
-/

namespace ScriptSimplifier

namespace Store

variable {M : Type*} [AddCommMonoid M]

/-- The sum over the elements at and below a reference without the shared ones. -/
def tally (s : Store) (shared : Ref → Bool) (own : Ref → M) (e : Option Ref) : M :=
  s.fold 0 (fun r parts => if shared r then 0 else own r + parts.sum) e

/-- The sum over the elements at and below references. -/
def tallyAll (s : Store) (shared : Ref → Bool) (own : Ref → M) (es : List (Option Ref)) : M :=
  (es.map (s.tally shared own)).sum

/-- The elements at and below a reference without the shared ones, each as often as it is
reached. -/
def census (s : Store) (shared : Ref → Bool) (e : Option Ref) : Multiset Ref :=
  s.tally shared (fun r => {r}) e

/-- The elements at and below references. -/
def censusAll (s : Store) (shared : Ref → Bool) (es : List (Option Ref)) : Multiset Ref :=
  s.tallyAll shared (fun r => {r}) es

variable {shared : Ref → Bool} {own : Ref → M}

@[simp] theorem tally_none (s : Store) : s.tally shared own none = 0 := s.fold_none

@[simp] theorem tallyAll_nil (s : Store) : s.tallyAll shared own [] = 0 := rfl

@[simp] theorem tallyAll_cons (s : Store) (e : Option Ref) (es : List (Option Ref)) :
    s.tallyAll shared own (e :: es) = s.tally shared own e + s.tallyAll shared own es := by
  simp [tallyAll]

@[simp] theorem tallyAll_append (s : Store) (es fs : List (Option Ref)) :
    s.tallyAll shared own (es ++ fs) = s.tallyAll shared own es + s.tallyAll shared own fs := by
  simp [tallyAll]

/-- Exchanging one of several references. -/
theorem tallyAll_set (s : Store) (shared : Ref → Bool) (own : Ref → M) {es : List (Option Ref)}
    {i : Nat} {e : Option Ref} (h : es[i]? = some e) (n : Option Ref) :
    s.tallyAll shared own (es.set i n) + s.tally shared own e =
      s.tallyAll shared own es + s.tally shared own n := by
  induction es generalizing i with
  | nil => simp at h
  | cons x rest ih =>
    cases i with
    | zero =>
      obtain rfl : x = e := by simpa using h
      rw [List.set_cons_zero, tallyAll_cons, tallyAll_cons]
      ac_rfl
    | succ i =>
      rw [List.set_cons_succ, tallyAll_cons, tallyAll_cons, add_assoc, ih (by simpa using h),
        add_assoc]

theorem tally_shared {s : Store} (hs : s.Acyclic) {r : Ref} (hr : shared r = true) :
    s.tally shared own (some r) = 0 := by
  rw [tally, hs.fold_some, if_pos hr]

theorem tally_own {s : Store} (hs : s.Acyclic) {r : Ref} (hr : shared r = false) :
    s.tally shared own (some r) = own r + s.tallyAll shared own (s.below r) := by
  rw [tally, hs.fold_some, if_neg (by simp [hr])]
  rfl

@[simp] theorem census_none (s : Store) : s.census shared none = 0 := s.tally_none

@[simp] theorem censusAll_nil (s : Store) : s.censusAll shared [] = 0 := rfl

@[simp] theorem censusAll_cons (s : Store) (e : Option Ref) (es : List (Option Ref)) :
    s.censusAll shared (e :: es) = s.census shared e + s.censusAll shared es :=
  s.tallyAll_cons e es

@[simp] theorem censusAll_append (s : Store) (es fs : List (Option Ref)) :
    s.censusAll shared (es ++ fs) = s.censusAll shared es + s.censusAll shared fs :=
  s.tallyAll_append es fs

theorem census_shared {s : Store} (hs : s.Acyclic) {r : Ref} (hr : shared r = true) :
    s.census shared (some r) = 0 :=
  tally_shared hs hr

theorem census_own {s : Store} (hs : s.Acyclic) {r : Ref} (hr : shared r = false) :
    s.census shared (some r) = r ::ₘ s.censusAll shared (s.below r) := by
  rw [census, tally_own hs hr, Multiset.singleton_add]
  rfl

/-! ## Members -/

theorem mem_censusAll {s : Store} {y : Ref} {es : List (Option Ref)} :
    y ∈ s.censusAll shared es ↔ ∃ c, some c ∈ es ∧ y ∈ s.census shared (some c) := by
  induction es with
  | nil => simp
  | cons e es ih =>
    rw [censusAll_cons, Multiset.mem_add, ih]
    constructor
    · rintro (h | ⟨c, hc, hy⟩)
      · cases e with
        | none => simp at h
        | some c => exact ⟨c, List.mem_cons_self, h⟩
      · exact ⟨c, List.mem_cons_of_mem _ hc, hy⟩
    · rintro ⟨c, hc, hy⟩
      rcases List.mem_cons.mp hc with rfl | hc
      · exact .inl hy
      · exact .inr ⟨c, hc, hy⟩

/-- What is counted lies below and is not shared. -/
theorem Acyclic.reaches_of_mem_census {s : Store} (hs : s.Acyclic) {r y : Ref}
    (h : y ∈ s.census shared (some r)) : s.Reaches r y ∧ shared y = false := by
  induction r using hs.induction with
  | step r ih =>
    by_cases hr : shared r = true
    · rw [census_shared hs hr] at h
      simp at h
    · have hr' : shared r = false := by simpa using hr
      rw [census_own hs hr', Multiset.mem_cons] at h
      rcases h with rfl | h
      · exact ⟨Relation.ReflTransGen.refl, hr'⟩
      · obtain ⟨c, hc, hy⟩ := mem_censusAll.mp h
        obtain ⟨hreach, hown⟩ := ih c hc hy
        exact ⟨Relation.ReflTransGen.head hc hreach, hown⟩

/-- If everything below a shared element is shared, all else that lies below is counted. -/
theorem Acyclic.mem_census {s : Store} (hs : s.Acyclic)
    (hclosed : ∀ p c, shared p = true → s.Holds p c → shared c = true) {r y : Ref}
    (h : s.Reaches r y) (hy : shared y = false) : y ∈ s.census shared (some r) := by
  have hup : ∀ {a}, s.Reaches a y → shared a = false := by
    intro a ha
    induction ha using Relation.ReflTransGen.head_induction_on with
    | refl => exact hy
    | head hab _ ih =>
      by_contra hshared
      have := hclosed _ _ (by simpa using hshared) hab
      rw [ih] at this
      simp at this
  induction h using Relation.ReflTransGen.head_induction_on with
  | refl =>
    rw [census_own hs hy]
    exact Multiset.mem_cons_self _ _
  | head hab hby ih =>
    rw [census_own hs (hup (Relation.ReflTransGen.head hab hby))]
    exact Multiset.mem_cons_of_mem (mem_censusAll.mpr ⟨_, hab, ih⟩)

/-- An element is counted once in its own census. -/
theorem Acyclic.count_census_self {s : Store} (hs : s.Acyclic) {x : Ref}
    (hx : shared x = false) : (s.census shared (some x)).count x = 1 := by
  have hnot : x ∉ s.censusAll shared (s.below x) := by
    intro hmem
    obtain ⟨c, hc, hxc⟩ := mem_censusAll.mp hmem
    exact hs.not_reaches hc (hs.reaches_of_mem_census hxc).1
  rw [census_own hs hx, Multiset.count_cons_self, Multiset.count_eq_zero_of_notMem hnot]

/-! ## Changing one cell -/

/-- When only the cell `x` changes, every tally changes by what that of `x` changed, as often as
`x` was counted. -/
theorem Acyclic.tally_exchange {s t : Store} (hs : s.Acyclic) (ht : t.Acyclic) {x : Ref}
    (hx : shared x = false) {own' : Ref → M} (hbelow : ∀ r, r ≠ x → t.below r = s.below r)
    (hown : ∀ r, r ≠ x → own' r = own r) (r : Ref) :
    t.tally shared own' (some r) +
        (s.census shared (some r)).count x • s.tally shared own (some x) =
      s.tally shared own (some r) +
        (s.census shared (some r)).count x • t.tally shared own' (some x) := by
  induction r using hs.induction with
  | step r ih =>
    by_cases hrx : r = x
    · subst hrx
      rw [hs.count_census_self hx, one_nsmul, one_nsmul, add_comm]
    · by_cases hr : shared r = true
      · rw [tally_shared hs hr, tally_shared ht hr, census_shared hs hr]
        simp
      · have hr' : shared r = false := by simpa using hr
        rw [tally_own hs hr', tally_own ht hr', census_own hs hr', hbelow r hrx, hown r hrx,
          Multiset.count_cons_of_ne (Ne.symm hrx)]
        -- the same equation for the places of `r`, summed up
        have hsum : ∀ es : List (Option Ref), (∀ c, some c ∈ es → s.Holds r c) →
            t.tallyAll shared own' es +
                (s.censusAll shared es).count x • s.tally shared own (some x) =
              s.tallyAll shared own es +
                (s.censusAll shared es).count x • t.tally shared own' (some x) := by
          intro es
          induction es with
          | nil => intro _; simp
          | cons e es ihes =>
            intro hes
            have htail := ihes fun c hc => hes c (List.mem_cons_of_mem _ hc)
            cases e with
            | none => simpa using htail
            | some c =>
              have hhead := ih c (hes c List.mem_cons_self)
              simp only [tallyAll_cons, censusAll_cons, Multiset.count_add, add_nsmul]
              rw [add_add_add_comm, hhead, htail, add_add_add_comm]
        rw [add_assoc, add_assoc, hsum (s.below r) fun c hc => hc]

/-! ## Places that hold an element -/

/-- An element is counted once for every counted place that holds it, and once as the start. -/
theorem Acyclic.census_holders {s : Store} (hs : s.Acyclic) {e : Ref} (he : shared e = false)
    (r : Ref) :
    ((s.census shared (some r)).map fun p => (s.below p).count (some e)).sum +
        (if r = e then 1 else 0) = (s.census shared (some r)).count e := by
  induction r using hs.induction with
  | step r ih =>
    by_cases hr : shared r = true
    · have hne : r ≠ e := by
        rintro rfl
        rw [he] at hr
        simp at hr
      rw [census_shared hs hr]
      simp [hne]
    · have hr' : shared r = false := by simpa using hr
      have hsum : ∀ es : List (Option Ref), (∀ c, some c ∈ es → s.Holds r c) →
          ((s.censusAll shared es).map fun p => (s.below p).count (some e)).sum +
            es.count (some e) = (s.censusAll shared es).count e := by
        intro es
        induction es with
        | nil => intro _; simp
        | cons e' es ihes =>
          intro hes
          have htail := ihes fun c hc => hes c (List.mem_cons_of_mem _ hc)
          cases e' with
          | none => simpa using htail
          | some c =>
            have hhead := ih c (hes c List.mem_cons_self)
            simp only [censusAll_cons, Multiset.map_add, Multiset.sum_add, Multiset.count_add,
              List.count_cons, beq_iff_eq, Option.some.injEq]
            omega
      have hall := hsum (s.below r) fun c hc => hc
      rw [census_own hs hr', Multiset.map_cons, Multiset.sum_cons, Multiset.count_cons]
      by_cases hre : r = e
      · simp only [hre, if_true] at hall ⊢
        omega
      · simp only [hre, Ne.symm hre, if_false]
        omega

end Store

end ScriptSimplifier
