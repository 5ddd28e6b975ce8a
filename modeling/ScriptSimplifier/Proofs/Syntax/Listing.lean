import ScriptSimplifier.Proofs.Syntax.WellFormed
import ScriptSimplifier.Syntax.Listing

/-!
# Listings of well-formed trees

A list with an absent item has no listing.  Where every child fits its field there is none, so every
well-formed tree has a listing (`entries?_isSome`).
-/

namespace ScriptSimplifier

/-- A child of a node adds to a listing, at any depth. -/
def Tree.Listed : Tree → Prop
  | .missing => True
  | .node label children => ∀ depth, (fieldListing? depth label.fields children).isSome = true
  | .list items => ∀ depth, (itemListing? depth items).isSome = true

theorem fieldListing?_isSome {fields : List Field} {children : List Tree}
    (h : ∀ p ∈ fields.zip children, p.2.Listed) (depth : Nat) :
    (fieldListing? depth fields children).isSome = true := by
  induction children generalizing fields with
  | nil => cases fields <;> simp [fieldListing?]
  | cons child children ih =>
    cases fields with
    | nil => simp [fieldListing?]
    | cons f fields =>
      rw [List.zip_cons_cons] at h
      obtain ⟨hchild, hchildren⟩ := List.forall_mem_cons.mp h
      obtain ⟨rest, hrest⟩ := Option.isSome_iff_exists.mp (ih hchildren)
      cases child with
      | missing => simp [fieldListing?, hrest]
      | node label below =>
        obtain ⟨entries, hentries⟩ := Option.isSome_iff_exists.mp (hchild (depth + 1))
        simp [fieldListing?, hrest, hentries]
      | list items =>
        obtain ⟨entries, hentries⟩ := Option.isSome_iff_exists.mp (hchild (depth + 2))
        simp [fieldListing?, hrest, hentries]

theorem itemListing?_isSome {items : List Tree}
    (h : ∀ t ∈ items, t.kind?.isSome = true ∧ t.Listed) (depth : Nat) :
    (itemListing? depth items).isSome = true := by
  induction items with
  | nil => rfl
  | cons item items ih =>
    obtain ⟨⟨hnode, hitem⟩, hitems⟩ := List.forall_mem_cons.mp h
    obtain ⟨rest, hrest⟩ := Option.isSome_iff_exists.mp (ih hitems)
    cases item with
    | missing | list _ => cases hnode
    | node label below =>
      obtain ⟨entries, hentries⟩ := Option.isSome_iff_exists.mp (hitem depth)
      simp [itemListing?, Tree.listing?, hrest, hentries]

/-- What fits the schema adds to a listing, a list if its items are nodes. -/
theorem listed_of_fits {strict : Strictness} (t : Tree)
    (h : t.allNodes (Tree.nodeFits strict) = true)
    (hitems : ∀ items, t = .list items → ∀ item ∈ items, item.kind?.isSome = true) :
    t.Listed := by
  induction t using Tree.induction with
  | missing => trivial
  | node label children ih =>
    obtain ⟨hfits, hbelow⟩ := allNodes_node.mp h
    refine fieldListing?_isSome fun p hp => ?_
    have hmem := (List.of_mem_zip hp).2
    refine ih p.2 hmem (hbelow p.2 hmem) fun items heq item hitem => ?_
    have hadmits : p.1.admits strict p.2 = true := List.all_eq_true.mp hfits p hp
    rw [heq] at hadmits
    have hin : item.isIn p.1.accepts = true :=
      List.all_eq_true.mp (Bool.and_eq_true_iff.mp hadmits).2 item hitem
    cases hkind : item.kind? with
    | none => simp [Tree.isIn, hkind] at hin
    | some kind => rfl
  | list items ih =>
    have hbelow := allNodes_list.mp h
    refine itemListing?_isSome fun item hitem => ?_
    have hnode := hitems items rfl item hitem
    refine ⟨hnode, ih item hitem (hbelow item hitem) fun more heq => ?_⟩
    rw [heq] at hnode
    cases hnode

/-- A well-formed tree has a listing. -/
theorem entries?_isSome {strict : Strictness} {t : Tree} (h : t.isWellFormed strict = true) :
    t.entries?.isSome = true := by
  rw [Tree.isWellFormed, Bool.and_eq_true] at h
  have hfits : t.allNodes (Tree.nodeFits strict) = true :=
    t.allNodes_mono (fun _ _ hnode => (nodeWellFormed_iff.mp hnode).2.2) h.2
  have hlisted : t.Listed := listed_of_fits t hfits fun items ht => by
    subst ht
    cases h.1
  cases t with
  | missing | list items => cases h.1
  | node label children =>
    obtain ⟨entries, hentries⟩ := Option.isSome_iff_exists.mp (hlisted 0)
    simp [Tree.entries?, Tree.listing?, hentries]

end ScriptSimplifier
