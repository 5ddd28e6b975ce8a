import Mathlib.Data.List.Forall2
import ScriptSimplifier.Text.Basic

/-!
# Texts that tell what they were made from

`Tells follows f x y` says that `f` tells `x` from `y` at the front of a text: where `f x` and `f y`
stand before texts that may follow them and the whole is the same, the two are the same.  Words of
one class of bytes (`tells_class`) and words none of which is the start of another
(`tells_prefixFree`) are told in this way, and so are rows of things with a separator between them
(`join_tells`).
-/

namespace ScriptSimplifier

namespace Text

variable {α : Type} {follows : Text → Prop} {f : α → Text} {x y : α}

/-- Two things are the same if their texts are, each with something behind it that may follow. -/
def Tells (follows : Text → Prop) (f : α → Text) (x y : α) : Prop :=
  ∀ ⦃u v : Text⦄, follows u → follows v → f x ++ u = f y ++ v → x = y ∧ u = v

theorem Tells.eq (h : Tells follows f x y) (hnil : follows []) (heq : f x = f y) : x = y :=
  (h hnil hnil (congrArg (· ++ []) heq)).1

/-- What may follow a word of a class of bytes: nothing that belongs to the class. -/
def Stops (p : UInt8 → Bool) (u : Text) : Prop := ∀ b ∈ u.head?, p b = false

theorem stops_cons {p : UInt8 → Bool} {b : UInt8} (h : p b = false) (u : Text) :
    Stops p (b :: u) := by
  intro c hc
  obtain rfl : b = c := by simpa using hc
  exact h

/-- A text that starts with a byte of some kind. -/
def Starts (p : UInt8 → Prop) (t : Text) : Prop := ∃ b more, t = b :: more ∧ p b

theorem Starts.append {p : UInt8 → Prop} {t : Text} (h : Starts p t) (more : Text) :
    Starts p (t ++ more) := by
  obtain ⟨b, rest, rfl, hb⟩ := h
  exact ⟨b, rest ++ more, rfl, hb⟩

theorem Starts.mono {p q : UInt8 → Prop} {t : Text} (h : Starts p t) (hpq : ∀ b, p b → q b) :
    Starts q t := by
  obtain ⟨b, more, ht, hb⟩ := h
  exact ⟨b, more, ht, hpq b hb⟩

theorem takeWhile_of_stops {p : UInt8 → Bool} {t u : Text} (ht : ∀ b ∈ t, p b = true)
    (hu : Stops p u) : (t ++ u).takeWhile p = t := by
  rw [List.takeWhile_append_of_pos ht]
  cases u with
  | nil => simp
  | cons b u => simp [hu b rfl]

/-- Words of a class of bytes. -/
theorem tells_class {p : UInt8 → Bool} {t t' : Text} (ht : ∀ b ∈ t, p b = true)
    (ht' : ∀ b ∈ t', p b = true) : Tells (Stops p) id t t' := by
  intro u v hu hv heq
  have hwords := congrArg (List.takeWhile p) heq
  rw [id, id, takeWhile_of_stops ht hu, takeWhile_of_stops ht' hv] at hwords
  subst hwords
  exact ⟨rfl, List.append_cancel_left heq⟩

/-- Things none of which has a text that starts another one's. -/
theorem tells_prefixFree {xs : List α}
    (hfree : ∀ x ∈ xs, ∀ y ∈ xs, (f x).isPrefixOf (f y) = true → x = y) (hx : x ∈ xs)
    (hy : y ∈ xs) : Tells (fun _ => True) f x y := by
  intro u v _ _ heq
  have hsame : x = y := by
    have hleft : f x <+: f y ++ v := heq ▸ List.prefix_append (f x) u
    rcases List.prefix_or_prefix_of_prefix hleft (List.prefix_append (f y) v) with h | h
    · exact hfree x hx y hy (List.isPrefixOf_iff_prefix.mpr h)
    · exact (hfree y hy x hx (List.isPrefixOf_iff_prefix.mpr h)).symm
  subst hsame
  exact ⟨rfl, List.append_cancel_left heq⟩

/-! ## Rows -/

theorem intercalate_cons (separator t : Text) (ts : List Text) :
    separator.intercalate (t :: ts) = t ++ ts.flatMap (separator ++ ·) := by
  induction ts generalizing t with
  | nil => simp
  | cons u ts ih => rw [List.intercalate_cons_cons, ih, List.flatMap_cons]; simp

section Rows

variable {separator : Text} (hseparator : ∀ u, follows (separator ++ u))

include hseparator

/-- What stands behind one of several things starts with a separator, if it is not what follows all
of them. -/
theorem follows_behind (xs : List α) {u : Text} (hu : follows u) :
    follows (xs.flatMap (fun x => separator ++ f x) ++ u) := by
  cases xs with
  | nil => exact hu
  | cons x xs =>
    rw [List.flatMap_cons, List.append_assoc, List.append_assoc]
    exact hseparator _

theorem behind_tells {xs ys : List α} (h : List.Forall₂ (Tells follows f) xs ys) :
    Tells follows (List.flatMap fun x => separator ++ f x) xs ys := by
  intro u v hu hv heq
  induction h with
  | nil => exact ⟨rfl, heq⟩
  | cons hhere _ ih =>
    simp only [List.flatMap_cons, List.append_assoc] at heq
    obtain ⟨rfl, hnext⟩ := hhere (follows_behind hseparator _ hu) (follows_behind hseparator _ hv)
      (List.append_cancel_left heq)
    obtain ⟨rfl, hrest⟩ := ih hnext
    exact ⟨rfl, hrest⟩

/-- Things with separators between them, as many on either side. -/
theorem join_tells {xs ys : List α} (h : List.Forall₂ (Tells follows f) xs ys) :
    Tells follows (fun xs => separator.intercalate (xs.map f)) xs ys := by
  intro u v hu hv heq
  cases h with
  | nil => exact ⟨rfl, heq⟩
  | cons hhere hbehind =>
    simp only [List.map_cons, intercalate_cons, List.flatMap_map, List.append_assoc] at heq
    obtain ⟨rfl, hnext⟩ :=
      hhere (follows_behind hseparator _ hu) (follows_behind hseparator _ hv) heq
    obtain ⟨rfl, hrest⟩ := behind_tells hseparator hbehind hu hv hnext
    exact ⟨rfl, hrest⟩

end Rows

end Text

end ScriptSimplifier
