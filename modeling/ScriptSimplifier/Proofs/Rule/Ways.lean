import ScriptSimplifier.Proofs.Rule.Normalization
import ScriptSimplifier.Proofs.Store.Ways

/-!
# Steps and ways

Flattening puts a statement in place of the block statement that stands for it, which moves the jump
at the beginning of a block into the list around it.  So what ends a list is not only a jump, but
also a block statement that begins with one (`Store.Jumps`).  With this, flattening changes nothing
about what stands behind the end of a list, and neither does dropping what stands behind a jump
(`SameWays.of_unwrap`, `SameWays.of_cut`).

The other steps drop nothing.  What they replace and what they join holds expressions only, so they
keep all ways to declarations (`NodeStep.sameWays`, `Fuses.sameWays`, `sameWays_completed`).
-/

namespace ScriptSimplifier

open Workspace Sequences Statements

namespace Store

/-! ## The end of a list -/

/-- A statement behind which a list is cut off: a jump, or a block statement that begins with such a
statement. -/
inductive Jumps (s : Store) : Ref → Prop
  | jump {r : Ref} : isJump s (some r) = true → Jumps s r
  | block {r block list first : Ref} {rest : List (Option Ref)} :
      s.get r = .node .blockStatement [some block] → s.get block = .node .block [some list] →
      s.get list = .list (some first :: rest) → Jumps s first → Jumps s r

/-- A block statement stands for the only statement of its block, or for the empty statement. -/
def Unwraps (s : Store) (r n : Ref) : Prop :=
  ∃ block list items, s.get r = .node .blockStatement [some block] ∧
    s.get block = .node .block [some list] ∧ s.get list = .list items ∧
    (items = [some n] ∨ items = [] ∧ n = .emptyStatement)

variable {s t : Store} {ends ends' : Ref → Prop} {barred : List Kind} {a c l n p r x y : Ref}
  {i : Nat} {strict : Strictness}

theorem isJump_congr (h : t.kind? r = s.kind? r) : isJump t (some r) = isJump s (some r) := by
  rw [isJump, isJump, Option.bind_some, Option.bind_some, h]

/-- What jumps in one store does so in another one, if block statements are what they were and lists
that begin with a jumping statement still begin with one. -/
theorem Jumps.transfer (hkind : ∀ r, t.kind? r = s.kind? r)
    (hnode : ∀ r label kids, s.get r = .node label kids →
      label = .blockStatement ∨ label = .block → t.get r = .node label kids)
    (hlist : ∀ l first rest, s.get l = .list (some first :: rest) → t.Jumps first →
      ∃ first' rest', t.get l = .list (some first' :: rest') ∧ t.Jumps first')
    (h : s.Jumps y) : t.Jumps y := by
  induction h with
  | jump hjump => exact .jump ((isJump_congr (hkind _)).trans hjump)
  | block hget hblock hitems _ ih =>
    obtain ⟨first, rest, hitems', hfirst⟩ := hlist _ _ _ hitems ih
    exact .block (hnode _ _ _ hget (.inl rfl)) (hnode _ _ _ hblock (.inr rfl)) hitems' hfirst

theorem isJump_eq_false {label : Label} {kids : List (Option Ref)} (hr : s.get r = .node label kids)
    (hlabel : label = .blockStatement ∨ label = .emptyStatement) : isJump s (some r) = false := by
  rw [isJump, Option.bind_some, kind?_node hr]
  rcases hlabel with rfl | rfl <;> rfl

/-- A block statement jumps if and only if what it stands for does. -/
theorem Unwraps.jumps_iff (h : s.Unwraps r n) : s.Jumps r ↔ s.Jumps n := by
  obtain ⟨block, list, items, hr, hblock, hlist, hitems⟩ := h
  constructor
  · intro hjumps
    cases hjumps with
    | jump hjump => simp [isJump_eq_false hr (.inl rfl)] at hjump
    | @block _ block' list' first rest hr' hblock' hlist' hfirst =>
      obtain ⟨-, hkids⟩ := Cell.node.inj (hr.symm.trans hr')
      obtain rfl : block = block' := by simpa using hkids
      obtain ⟨-, hkids⟩ := Cell.node.inj (hblock.symm.trans hblock')
      obtain rfl : list = list' := by simpa using hkids
      obtain rfl := Cell.list.inj (hlist.symm.trans hlist')
      rcases hitems with hone | ⟨hnone, -⟩
      · obtain rfl : first = n := by simpa using (List.cons.inj hone).1
        exact hfirst
      · cases hnone
  · intro hjumps
    rcases hitems with rfl | ⟨rfl, rfl⟩
    · exact .block hr hblock hlist hjumps
    · cases hjumps with
      | jump hjump =>
        have hempty : s.get .emptyStatement = .node .emptyStatement [] := rfl
        simp [isJump_eq_false hempty (.inr rfl)] at hjump
      | block hempty => cases hempty

theorem holds_single {label : Label} (hp : s.get p = .node label [some x]) :
    s.Holds p c ↔ c = x := by
  simp [holds_node_iff hp]

/-- The same ways to scopes lead from a block statement and from what it stands for. -/
theorem Unwraps.way_iff (h : s.Unwraps r n) (hn : s.kind? n ≠ some .functionBody)
    (hbarred : barred ⊆ [Kind.functionBody]) (hy : s.IsScope y) :
    s.Way ends barred r y ↔ s.Way ends barred n y := by
  obtain ⟨block, list, items, hr, hblock, hlist, hitems⟩ := h
  constructor
  · intro hway
    -- from the block statement the only way leads through its block and its list
    rcases Relation.ReflTransGen.cases_head hway with rfl | ⟨b, ⟨hb, -⟩, hway⟩
    · exact absurd hy (not_scope_node hr rfl)
    obtain rfl := (holds_single hr).mp hb.holds
    rcases Relation.ReflTransGen.cases_head hway with rfl | ⟨l, ⟨hl, -⟩, hway⟩
    · exact absurd hy (not_scope_node hblock rfl)
    obtain rfl := (holds_single hblock).mp hl.holds
    rcases Relation.ReflTransGen.cases_head hway with rfl | ⟨q, ⟨hq, -⟩, hway⟩
    · exact absurd hy (not_scope_list hlist)
    have hmem : some q ∈ items := (holds_list_iff hlist).mp hq.holds
    rcases hitems with rfl | ⟨rfl, -⟩
    · obtain rfl := Option.some.inj (List.mem_singleton.mp hmem)
      exact hway
    · cases hmem
  · intro hway
    rcases hitems with rfl | ⟨rfl, rfl⟩
    · have hfirst : s.Leads ends list n :=
        .item (k := 0) hlist rfl fun j _ hj => absurd hj (Nat.not_lt_zero j)
      refine .head ⟨.field hr List.mem_cons_self, not_barred hbarred ?_⟩
        (.head ⟨.field hblock List.mem_cons_self, not_barred hbarred ?_⟩
          (.head ⟨hfirst, not_barred hbarred hn⟩ hway))
      · simp [kind?_node hblock, Label.kind]
      · simp [kind?_list hlist]
    · -- nothing lies below the empty statement
      have hget : s.get .emptyStatement = .node .emptyStatement [] := rfl
      have hempty : s.Barren .emptyStatement :=
        .of_below (not_scope_node hget rfl) fun c hc => by
          simp [holds_node_iff hget] at hc
      exact absurd hway (hempty.no_way hy)

/-! ## One child for another -/

/-- In one place an element has another child in the second store, and all else is the same. -/
structure Exchanges (s t : Store) (x : Ref) (i : Nat) (r n : Ref) : Prop where
  elsewhere : ∀ y, y ≠ x → t.get y = s.get y
  place : (s.below x)[i]? = some (some r)
  here : t.get x = (s.get x).refill ((s.below x).set i (some n))

namespace Exchanges

variable (h : s.Exchanges t x i r n)

include h

theorem below : t.below x = (s.below x).set i (some n) := by
  rw [Store.below, h.here, Cell.below_refill]

theorem symm : t.Exchanges s x i n r := by
  refine ⟨fun y hy => (h.elsewhere y hy).symm, ?_, ?_⟩
  · rw [h.below, List.getElem?_set_self (List.getElem?_eq_some_iff.mp h.place).1]
  · have hback : ((s.below x).set i (some n)).set i (some r) = s.below x := by
      rw [List.set_set]
      obtain ⟨hlt, hget⟩ := List.getElem?_eq_some_iff.mp h.place
      rw [← hget, List.set_getElem_self]
    rw [h.below, hback, h.here]
    rw [Store.below]
    cases s.get x <;> rfl

theorem label (y : Ref) : t.label? y = s.label? y := by
  by_cases hy : y = x
  · subst hy
    rw [label?, h.here, label?]
    cases s.get y <;> rfl
  · rw [label?, h.elsewhere y hy, label?]

theorem kind (y : Ref) : t.kind? y = s.kind? y := kind?_of_label (h.label y)

/-- A node has the one element for the other among its children. -/
theorem node_here {label : Label} {kids : List (Option Ref)} (hget : s.get x = .node label kids) :
    kids[i]? = some (some r) ∧ t.get x = .node label (kids.set i (some n)) := by
  have hbelow : s.below x = kids := below_node hget
  refine ⟨hbelow ▸ h.place, ?_⟩
  rw [h.here, hget, hbelow]
  rfl

/-- A list has the one element for the other among its items. -/
theorem list_here {items : List (Option Ref)} (hget : s.get x = .list items) :
    items[i]? = some (some r) ∧ t.get x = .list (items.set i (some n)) := by
  have hbelow : s.below x = items := below_list hget
  refine ⟨hbelow ▸ h.place, ?_⟩
  rw [h.here, hget, hbelow]
  rfl

/-- The changed element leads to what is put in place, and to what it led to elsewhere. -/
theorem leads_here (hends : ∀ q, ends' q → ends q) (hn : ends' n → ends r)
    (hleads : s.Leads ends x c) : t.Leads ends' x c ∨ c = r ∧ t.Leads ends' x n := by
  cases hleads with
  | @field label kids hget hc =>
    obtain ⟨hplace, hget'⟩ := h.node_here hget
    have hlt := (List.getElem?_eq_some_iff.mp hplace).1
    obtain ⟨j, hj⟩ := List.mem_iff_getElem?.mp hc
    by_cases hij : i = j
    · subst hij
      obtain rfl : r = c := by simpa using hplace.symm.trans hj
      exact .inr ⟨rfl, .field hget' (List.mem_of_getElem? (List.getElem?_set_self hlt))⟩
    · exact .inl (.field hget' (List.mem_of_getElem? (by rwa [List.getElem?_set_ne hij])))
  | @item items k hget hk hbefore =>
    obtain ⟨hplace, hget'⟩ := h.list_here hget
    have hlt := (List.getElem?_eq_some_iff.mp hplace).1
    -- the new item ends the list only where the old one did
    have hbefore' : ∀ j q, j < k → (items.set i (some n))[j]? = some (some q) → ¬ ends' q := by
      intro j q hj hq hend
      by_cases hij : i = j
      · subst hij
        obtain rfl : n = q := by simpa [List.getElem?_set_self hlt] using hq
        exact hbefore i r hj hplace (hn hend)
      · exact hbefore j q hj (by rwa [List.getElem?_set_ne hij] at hq) (hends q hend)
    by_cases hik : i = k
    · subst hik
      obtain rfl : r = c := by simpa using hplace.symm.trans hk
      exact .inr ⟨rfl, .item hget' (List.getElem?_set_self hlt) hbefore'⟩
    · exact .inl (.item hget' (by rwa [List.getElem?_set_ne hik]) hbefore')

/-- What an element leads to it still leads to, unless it was exchanged. -/
theorem leads (hends : ∀ q, ends' q → ends q) (hn : ends' n → ends r)
    (hleads : s.Leads ends a c) :
    t.Leads ends' a c ∨ a = x ∧ c = r ∧ t.Leads ends' x n := by
  by_cases hax : a = x
  · subst hax
    exact (h.leads_here hends hn hleads).imp_right fun hnew => ⟨rfl, hnew⟩
  · refine .inl ?_
    cases hleads with
    | field hget hc => exact .field ((h.elsewhere a hax).trans hget) hc
    | item hget hk hbefore =>
      exact .item ((h.elsewhere a hax).trans hget) hk fun j q hj hq hend =>
        hbefore j q hj hq (hends q hend)

/-- What jumps still does, if the exchange is not one between the parts of a block statement and
what is put in place jumps like what it replaces. -/
theorem jumps (hx : ∀ label kids, s.get x = .node label kids →
      label ≠ .blockStatement ∧ label ≠ .block)
    (hn : t.Jumps r → t.Jumps n) (hy : s.Jumps y) : t.Jumps y := by
  refine hy.transfer h.kind (fun p label kids hget hlabel => ?_) fun l first rest hlist hfirst => ?_
  · refine (h.elsewhere p ?_).trans hget
    rintro rfl
    obtain ⟨hstatement, hblock⟩ := hx _ _ hget
    exact hlabel.elim hstatement hblock
  · by_cases hlx : l = x
    · subst hlx
      obtain ⟨hplace, hlist'⟩ := h.list_here hlist
      cases i with
      | zero =>
        obtain rfl : first = r := by simpa using hplace
        exact ⟨n, rest, hlist', hn hfirst⟩
      | succ i => exact ⟨first, rest.set i (some n), hlist', hfirst⟩
    · exact ⟨first, rest, (h.elsewhere l hlx).trans hlist, hfirst⟩

/-- A way still leads to the same element, if one does so from what is put in place. -/
theorem way (hends : ∀ q, ends' q → ends q) (hn : ends' n → ends r)
    (hfree : ∀ k ∈ barred, t.kind? n ≠ some k)
    (hback : t.Way ends' barred r y → t.Way ends' barred n y) (hway : s.Way ends barred a y) :
    t.Way ends' barred a y := by
  refine hway.transfer (fun _ => True) (fun p c _ hleads _ hbarred => ⟨trivial, fun hrest => ?_⟩)
    trivial
  rcases h.leads hends hn hleads with hsame | ⟨rfl, rfl, hnew⟩
  · exact .head ⟨hsame, fun k hk => (h.kind c).symm ▸ hbarred k hk⟩ hrest
  · exact .head ⟨hnew, hfree⟩ (hback hrest)

end Exchanges

/-- Refilling one place exchanges its child. -/
theorem exchanges_refill (hx : (s.below x)[i]? = some (some r)) (n : Ref) :
    s.Exchanges (s.refill x ((s.below x).set i (some n))) x i r n :=
  ⟨fun _ hy => get_refill_ne _ hy, hx,
    get_refill_self _ (Holds.cell (c := r) (List.mem_of_getElem? hx))⟩

/-- What holds a block statement is neither a block statement nor a block. -/
theorem Typed.not_block (ht : s.Typed strict) (hr : s.kind? r = some .blockStatement)
    (hx : s.Holds x r) {label : Label} {kids : List (Option Ref)}
    (hget : s.get x = .node label kids) : label ≠ .blockStatement ∧ label ≠ .block := by
  obtain ⟨f, hf, hadmits⟩ := (ht x label kids hget).exists_field ((holds_node_iff hget).mp hx)
  have hnode : s.isList r = false := by
    cases hr' : s.get r with
    | node label' kids' => simp [isList, hr']
    | list items => simp [kind?_list hr'] at hr
  obtain ⟨hsingle, hin⟩ := (admits_node hnode).mp hadmits
  constructor
  · rintro rfl
    obtain rfl : f = .single "block" .block := by
      simpa [Label.fields, Label.kind, Kind.fields] using hf
    simp [isIn, hr, Field.single, Category.accepts] at hin
  · rintro rfl
    obtain rfl : f = .list "statements" .statement := by
      simpa [Label.fields, Label.kind, Kind.fields] using hf
    cases hsingle

namespace Exchanges

variable (h : s.Exchanges t x i r n)

include h

/-- The element is not below itself, so a block statement still stands for the same. -/
theorem unwraps (hs : s.Acyclic) (hunwraps : s.Unwraps r n) : t.Unwraps r n := by
  obtain ⟨block, list, items, hr, hblock, hlist, hitems⟩ := hunwraps
  have hrb : s.Holds r block := (holds_single hr).mpr rfl
  have hbl : s.Holds block list := (holds_single hblock).mpr rfl
  have hsame : ∀ q, s.Reaches r q → t.get q = s.get q := by
    intro q hreach
    refine h.elsewhere q ?_
    rintro rfl
    exact hs.not_reaches (List.mem_of_getElem? h.place) hreach
  exact ⟨block, list, items, (hsame r .refl).trans hr, (hsame block (.single hrb)).trans hblock,
    (hsame list (.tail (.single hrb) hbl)).trans hlist, hitems⟩

theorem node {label : Label} {kids : List (Option Ref)} (hget : t.get x = .node label kids) :
    ∃ kids', s.get x = .node label kids' := by
  rw [h.here] at hget
  cases hold : s.get x with
  | list items => simp [hold, Cell.refill] at hget
  | node label' kids' =>
    rw [hold] at hget
    obtain ⟨rfl, -⟩ := Cell.node.inj hget
    exact ⟨kids', rfl⟩

/-- If a block statement gives its place to what it stands for, the same elements jump. -/
theorem jumps_iff (ht : s.Typed strict) (hs : s.Acyclic) (hunwraps : s.Unwraps r n) :
    s.Jumps y ↔ t.Jumps y := by
  have hkind : s.kind? r = some .blockStatement := by
    obtain ⟨_, _, _, hr, -⟩ := hunwraps
    exact kind?_node hr
  have hholds : s.Holds x r := List.mem_of_getElem? h.place
  refine ⟨h.jumps (fun _ _ hget => ht.not_block hkind hholds hget)
      (h.unwraps hs hunwraps).jumps_iff.mp,
    h.symm.jumps (fun _ _ hget => ?_) hunwraps.jumps_iff.mpr⟩
  obtain ⟨_, hget'⟩ := h.node hget
  exact ht.not_block hkind hholds hget'

end Exchanges

/-- A block statement may give its place to what it stands for. -/
theorem SameWays.of_unwrap (ht : s.Typed strict) (hs : s.Acyclic)
    (hx : (s.below x)[i]? = some (some r)) (hunwraps : s.Unwraps r n)
    (hn : s.kind? n ≠ some .functionBody) :
    s.SameWays s.Jumps (s.refill x ((s.below x).set i (some n)))
      (s.refill x ((s.below x).set i (some n))).Jumps := by
  have hexchanges := exchanges_refill hx n
  have hsize : (s.refill x ((s.below x).set i (some n))).cells.size = s.cells.size := by
    simp [refill]
  generalize s.refill x ((s.below x).set i (some n)) = t at hexchanges hsize ⊢
  have hunwraps' := hexchanges.unwraps hs hunwraps
  have hjumps : ∀ q, s.Jumps q ↔ t.Jumps q := fun _ => hexchanges.jumps_iff ht hs hunwraps
  have hr : s.kind? r ≠ some .functionBody := by
    obtain ⟨_, _, _, hget, -⟩ := hunwraps
    simp [kind?_node hget, Label.kind]
  refine ⟨hsize.ge, fun q _ => hexchanges.label q, fun barred hbarred a y _ hy => ⟨?_, ?_⟩⟩
  · exact hexchanges.symm.way (fun q => (hjumps q).mp)
      (fun hjump => (hjumps n).mp (hunwraps.jumps_iff.mp hjump)) (not_barred hbarred hr)
      (hunwraps.way_iff hn hbarred hy).mpr
  · have hy' : t.IsScope y := hy.of_kind (hexchanges.kind y)
    have hn' : t.kind? n ≠ some .functionBody := by rwa [hexchanges.kind n]
    exact hexchanges.way (fun q => (hjumps q).mpr)
      (fun hjump => hunwraps.jumps_iff.mpr ((hjumps n).mpr hjump)) (not_barred hbarred hn')
      (hunwraps'.way_iff hn' hbarred hy').mp

/-! ## Cutting a list off -/

/-- The beginning of a list is all that matters for what jumps. -/
theorem jumps_head {items items' : List (Option Ref)} (hs : s.get l = .list items)
    (ht : t.get l = .list items') (hhead : items'.head? = items.head?)
    (helsewhere : ∀ r, r ≠ l → t.get r = s.get r) (hy : s.Jumps y) : t.Jumps y := by
  refine hy.transfer (fun r => ?_) (fun r label kids hget _ => ?_)
    fun r first rest hget hfirst => ?_
  · by_cases hr : r = l
    · rw [hr, kind?_list hs, kind?_list ht]
    · rw [kind?, label?, helsewhere r hr, kind?, label?]
  · refine (helsewhere r ?_).trans hget
    rintro rfl
    cases hs.symm.trans hget
  · by_cases hr : r = l
    · subst hr
      obtain rfl := Cell.list.inj (hs.symm.trans hget)
      obtain ⟨rest', rfl⟩ := List.head?_eq_some_iff.mp hhead
      exact ⟨first, rest', ht, hfirst⟩
    · exact ⟨first, rest, (helsewhere r hr).trans hget, hfirst⟩

/-- What a list leads to it still leads to, if the items up to there are the same. -/
theorem Leads.upTo {items items' : List (Option Ref)} {m : Nat} (hs : s.get l = .list items)
    (ht : t.get l = .list items') (helsewhere : ∀ r, r ≠ l → t.get r = s.get r)
    (hitems : ∀ k, k ≤ m → items'[k]? = items[k]?)
    (hbound : ∀ (k : Nat) c, items[k]? = some (some c) →
      (∀ j q, j < k → items[j]? = some (some q) → ¬ ends q) → k ≤ m)
    (hends : ∀ q, ends' q → ends q) (h : s.Leads ends p c) : t.Leads ends' p c := by
  cases h with
  | field hget hc =>
    refine .field ((helsewhere p ?_).trans hget) hc
    rintro rfl
    cases hs.symm.trans hget
  | @item items k hget hk hbefore =>
    by_cases hp : p = l
    · subst hp
      obtain rfl := Cell.list.inj (hs.symm.trans hget)
      have hle := hbound k c hk hbefore
      refine .item ht ((hitems k hle).trans hk) fun j q hj hq hend => ?_
      rw [hitems j (by omega)] at hq
      exact hbefore j q hj hq (hends q hend)
    · exact .item ((helsewhere p hp).trans hget) hk fun j q hj hq hend =>
        hbefore j q hj hq (hends q hend)

/-- A list may be cut off behind a jump. -/
theorem SameWays.of_cut {before after : List (Option Ref)} {jump : Option Ref}
    (hs : s.get l = .list (before ++ jump :: after)) (hjump : isJump s jump = true) :
    s.SameWays s.Jumps (s.refill l (before ++ [jump])) (s.refill l (before ++ [jump])).Jumps := by
  obtain ⟨j, rfl⟩ : ∃ j, jump = some j := by
    cases jump with
    | none => cases hjump
    | some j => exact ⟨j, rfl⟩
  have ht := Edit.get_refill_list hs (before ++ [some j])
  have helsewhere : ∀ r, r ≠ l → (s.refill l (before ++ [some j])).get r = s.get r :=
    fun _ hr => get_refill_ne _ hr
  have hlabel : ∀ r, (s.refill l (before ++ [some j])).label? r = s.label? r := label?_refill s l _
  have hsize : (s.refill l (before ++ [some j])).cells.size = s.cells.size := by simp [refill]
  generalize s.refill l (before ++ [some j]) = t at ht helsewhere hlabel hsize ⊢
  have hback : ∀ r, r ≠ l → s.get r = t.get r := fun r hr => (helsewhere r hr).symm
  have hhead : (before ++ [some j]).head? = (before ++ some j :: after).head? := by
    cases before <;> rfl
  have hitems : ∀ k, k ≤ before.length →
      (before ++ [some j])[k]? = (before ++ some j :: after)[k]? := by
    intro k hk
    rcases Nat.lt_or_eq_of_le hk with hlt | rfl
    · rw [List.getElem?_append_left hlt, List.getElem?_append_left hlt]
    · simp
  have hkind : ∀ r, t.kind? r = s.kind? r := fun r => kind?_of_label (hlabel r)
  refine ⟨hsize.ge, fun r _ => hlabel r, fun barred _ a y _ _ => ⟨fun h => ?_, fun h => ?_⟩⟩
  · -- what the shorter list leads to stands up to the jump
    refine h.stays (fun _ => True) (fun p c _ hleads _ => ⟨trivial, ?_, (hkind c).symm⟩) trivial
    refine hleads.upTo ht hs hback (fun k hk => (hitems k hk).symm) (fun k c hk _ => ?_)
      fun q => jumps_head hs ht hhead helsewhere
    have hlt := (List.getElem?_eq_some_iff.mp hk).1
    simp only [List.length_append, List.length_singleton] at hlt
    omega
  · -- and so does what the longer one leads to, since the jump ends it
    refine h.stays (fun _ => True) (fun p c _ hleads _ => ⟨trivial, ?_, hkind c⟩) trivial
    refine hleads.upTo hs ht helsewhere hitems (fun k c _ hbefore => ?_)
      fun q => jumps_head ht hs hhead.symm hback
    by_contra hlt
    exact hbefore before.length j (by omega) (by simp) (.jump hjump)

end Store

/-! ## Steps between plain nodes -/

variable {strict : Strictness} {w w' : Workspace} {root : Ref}

/-- New children for an element keep all ways if whatever it loses and gains is barren. -/
theorem Workspace.Grows.sameWays (hgrows : w.Grows w') (hclosed : w.store.Closed) {x : Ref}
    {kids : List (Option Ref)} (hx : (w'.refill x kids).store.below x = kids)
    (hlost : ∀ c, some c ∈ w.store.below x → some c ∈ kids ∨ w.store.Barren c)
    (hgained : ∀ c, some c ∈ kids →
      some c ∈ w.store.below x ∨ (w'.refill x kids).store.Barren c) :
    w.store.SameWays (fun _ => False) (w'.refill x kids).store (fun _ => False) := by
  have hsize : w.store.cells.size ≤ (w'.refill x kids).store.cells.size := by
    simpa [Workspace.refill, Store.refill] using hgrows.store.size
  refine .of_trade (x := x) hclosed hsize (fun r hr => ?_) (fun r hr hne => ?_) (fun c hc => ?_)
    fun c hc => ?_
  · rw [Workspace.refill, Store.label?_refill, Store.label?, hgrows.store.get r hr, Store.label?]
  · rw [Workspace.refill, Store.below, Store.get_refill_ne kids hne, ← Store.below,
      hgrows.store.below hr]
  · rw [Store.Holds, hx]
    exact hlost c hc
  · rw [Store.Holds, hx] at hc
    exact hgained c hc

/-- A node of the workspace that is plain stays so when an element gets new children. -/
theorem Workspace.barren_refill {u : Workspace} {x n : Ref} {kids : List (Option Ref)}
    (ht : (u.refill x kids).store.Typed strict) {k : Kind} (hk : u.store.kind? n = some k)
    (hplain : k.isPlain = true) : (u.refill x kids).store.Barren n := by
  refine ht.barren (.inl ⟨k, ?_, hplain⟩)
  rw [Workspace.refill, Store.kind?, Store.label?_refill, ← Store.kind?, hk]

theorem isCarrier.isPlain {label : Label} (h : isCarrier label) : label.kind.isPlain = true := by
  rcases h with rfl | rfl | rfl <;> rfl

theorem kind_conditionalStatement {label : Label} (hlabel : isCarrier label)
    (test c a : Option Ref) :
    (conditionalStatement w label test c a).2.store.kind?
      (conditionalStatement w label test c a).1 = some label.kind := by
  rw [conditionalStatement_eq, add_own _ _ hlabel.isOwn]
  exact Store.kind?_node (Store.get_push_next _ _)

variable {r n : Ref}

/-- Below a node that gives way to something else, unless it is a block statement, there is nothing
but expressions. -/
theorem NodeStep.barren (hw : w.Kept strict) {e : Option Ref} (h : NodeStep w r e w')
    (hr : w.store.kind? r ≠ some .blockStatement) : w.store.Barren r := by
  have hbranches : ∀ {test : Option Ref} {c a : Ref} {label : Label} {x y : Option Ref},
      w.store.get r = .node .ifStatement [test, some c, some a] → isCarrier label →
      w.store.get c = .node label [x] → w.store.get a = .node label [y] → w.store.Barren r := by
    intro test c a label x y hget hlabel hc ha
    refine .of_below (Store.not_scope_node hget rfl) fun q hq => hw.typed.barren ?_
    obtain ⟨t, _, _, hkids, htest, -⟩ := (hw.typed r _ _ hget).three rfl
    obtain ⟨rfl, -⟩ : test = t ∧ _ := by simpa using hkids
    rcases (by simpa [Store.holds_node_iff hget] using hq : some q = test ∨ q = c ∨ q = a) with
      rfl | rfl | rfl
    · rcases (Store.admits_single rfl).mp htest with ⟨hnone, -⟩ | hin
      · cases hnone
      · exact Store.isPlain_of_expression hin
    · exact .inl ⟨_, Store.kind?_node hc, hlabel.isPlain⟩
    · exact .inl ⟨_, Store.kind?_node ha, hlabel.isPlain⟩
  cases h with
  | emptied hget _ _ | unwrapped hget _ _ => exact absurd (Store.kind?_node hget) hr
  | returned hget hc ha => exact hbranches hget (.inl rfl) hc ha
  | lowered hlabel hget hc ha => exact hbranches hget (.inr hlabel) hc ha
  | selected hget _ => exact hw.typed.barren (.inl ⟨_, Store.kind?_node hget, rfl⟩)
  | unary hget _ _ _ => exact hw.typed.barren (.inl ⟨_, Store.kind?_node hget, rfl⟩)
  | binary hget _ _ _ _ => exact hw.typed.barren (.inl ⟨_, Store.kind?_node hget, rfl⟩)

/-- What it gives way to is plain. -/
theorem NodeStep.plain (hw : w.Kept strict) (h : NodeStep w r (some n) w')
    (hr : w.store.kind? r ≠ some .blockStatement) :
    ∃ k : Kind, w'.store.kind? n = some k ∧ k.isPlain = true := by
  have heffect := h.effect hw
  have hexpression : w.store.isIn .expression (some r) = true →
      ∃ k : Kind, w'.store.kind? n = some k ∧ k.isPlain = true := by
    intro hin
    rcases heffect.category _ hin with ⟨hnone, -⟩ | hin'
    · cases hnone
    · obtain ⟨n', label, kids, heq, hget, hlabel⟩ := Store.isIn_iff.mp hin'
      obtain rfl := Option.some.inj heq
      exact ⟨label.kind, Store.kind?_node hget, Kind.isPlain_of_isExpression hlabel⟩
  generalize hn : some n = e at h
  cases h with
  | emptied hget _ _ | unwrapped hget _ _ => exact absurd (Store.kind?_node hget) hr
  | returned _ _ _ =>
    obtain rfl := Option.some.inj hn
    exact ⟨_, kind_conditionalStatement (.inl rfl) _ _ _, rfl⟩
  | lowered hlabel _ _ _ =>
    obtain rfl := Option.some.inj hn
    exact ⟨_, kind_conditionalStatement (.inr hlabel) _ _ _, isCarrier.isPlain (.inr hlabel)⟩
  | selected hget _ => exact hexpression (isIn_node hget rfl)
  | unary hget _ _ _ => exact hexpression (isIn_node hget rfl)
  | binary hget _ _ _ _ => exact hexpression (isIn_node hget rfl)

/-- A block statement gives way to a statement. -/
theorem NodeStep.statement (hw : w.Kept strict) (h : NodeStep w r (some n) w')
    (hr : w.store.kind? r = some .blockStatement) : w'.store.kind? n ≠ some .functionBody := by
  have hin : w.store.isIn .statement (some r) = true := by
    simp [Store.isIn, hr, Category.accepts, Kind.isStatement]
  rcases (h.effect hw).category _ hin with ⟨hnone, -⟩ | hin'
  · cases hnone
  · intro hbody
    simp [Store.isIn, hbody, Category.accepts, Kind.isStatement] at hin'

/-- Replacing a node other than a block statement keeps all ways. -/
theorem NodeStep.sameWays (hw : w.Kept strict) (h : NodeStep w r (some n) w')
    (hr : w.store.kind? r ≠ some .blockStatement) {x : Ref} {i : Nat}
    (hi : (w.store.below x)[i]? = some (some r))
    (ht : (w'.refill x ((w.store.below x).set i (some n))).store.Typed strict) :
    w.store.SameWays (fun _ => False) (w'.refill x ((w.store.below x).set i (some n))).store
      (fun _ => False) := by
  have hgrows := (h.effect hw).builds.grows
  have hcell : ∃ m, x = .cell m ∧ m < w'.store.cells.size := by
    have hholds : w.store.Holds x r := List.mem_of_getElem? hi
    exact hholds.cell.imp fun m hm => ⟨hm.1, Nat.lt_of_lt_of_le hm.2 hgrows.store.size⟩
  refine hgrows.sameWays hw.closed ?_ (fun c hc => ?_) fun c hc => ?_
  · rw [Workspace.refill, Store.below, Store.get_refill_self _ hcell, Cell.below_refill]
  · obtain ⟨j, hj⟩ := List.mem_iff_getElem?.mp hc
    by_cases hij : i = j
    · subst hij
      obtain rfl : r = c := by simpa using hi.symm.trans hj
      exact .inr (h.barren hw hr)
    · exact .inl (List.mem_of_getElem? (by rwa [List.getElem?_set_ne hij]))
  · rcases List.mem_or_eq_of_mem_set hc with hold | hnew
    · exact .inl hold
    · obtain rfl := Option.some.inj hnew
      obtain ⟨k, hk, hplain⟩ := h.plain hw hr
      exact .inr (barren_refill ht hk hplain)

/-! ## Steps of lists -/

section Lists

variable {items items' : List (Option Ref)}

/-- Rewriting a list keeps all ways if only plain statements are lost and gained. -/
theorem sameWays_list (hw : w.Kept strict) (hgrows : w.Grows w') {l : Ref}
    (hl : w.store.get l = .list items) (ht : (w'.refill l items').store.Typed strict)
    (hlost : ∀ c, some c ∈ items → some c ∈ items' ∨
      ∃ k : Kind, w.store.kind? c = some k ∧ k.isPlain = true)
    (hgained : ∀ c, some c ∈ items' → some c ∈ items ∨
      ∃ k : Kind, w'.store.kind? c = some k ∧ k.isPlain = true) :
    w.store.SameWays (fun _ => False) (w'.refill l items').store (fun _ => False) := by
  have hbelow : w.store.below l = items := Store.below_list hl
  have hknown : w.store.Known l := by
    by_contra hunknown
    cases hl.symm.trans (Store.get_unknown hunknown)
  refine hgrows.sameWays hw.closed ?_ (fun c hc => ?_) fun c hc => ?_
  · exact Store.below_list (Edit.get_refill_list ((hgrows.store.get l hknown).trans hl) items')
  · rw [hbelow] at hc
    exact (hlost c hc).imp_right fun hplain => hw.typed.barren (.inl hplain)
  · rw [hbelow]
    refine (hgained c hc).imp_right fun hnew => ?_
    obtain ⟨k, hk, hplain⟩ := hnew
    exact barren_refill ht hk hplain

theorem plain_statement {s : Store} {c : Ref} {e : Option Ref}
    (h : statementExpression? s (some c) = some e) :
    ∃ k : Kind, s.kind? c = some k ∧ k.isPlain = true := by
  obtain ⟨r, heq, hget⟩ := statementExpression?_eq h
  obtain rfl := Option.some.inj heq
  exact ⟨_, Store.kind?_node hget, rfl⟩

theorem plain_completion {s : Store} {c : Ref} {label : Label} {e : Option Ref}
    (h : completion? s (some c) = some (label, e)) :
    ∃ k : Kind, s.kind? c = some k ∧ k.isPlain = true := by
  obtain ⟨r, heq, hget, hlabel⟩ := completion?_eq h
  obtain rfl := Option.some.inj heq
  refine ⟨_, Store.kind?_node hget, ?_⟩
  rcases hlabel with ⟨rfl, -⟩ | rfl <;> rfl

/-- What is lost and gained when runs are fused. -/
theorem Sequences.Fuses.trade {s : Store} {position : Nat} {puts : List (Nat × Ref)}
    {gone : List Nat} (h : Fuses s position w items puts gone items' w') :
    (∀ e ∈ items, e ∈ items' ∨ (statementExpression? s e).isSome = true) ∧
      ∀ e ∈ items', e ∈ items ∨ ∃ c, e = some c ∧
        w'.store.kind? c = some .expressionStatement := by
  induction h with
  | nil position w => exact ⟨by simp, by simp⟩
  | keep item _ _ ih =>
    obtain ⟨hlost, hgained⟩ := ih
    refine ⟨fun e he => ?_, fun e he => ?_⟩
    · rcases List.mem_cons.mp he with rfl | he
      · exact .inl List.mem_cons_self
      · exact (hlost e he).imp_left (List.mem_cons_of_mem _)
    · rcases List.mem_cons.mp he with rfl | he
      · exact .inl List.mem_cons_self
      · exact (hgained e he).imp_left (List.mem_cons_of_mem _)
  | @fuse position w w' chunk others rest rest' first puts gone _ hmap _ hrest ih =>
    obtain ⟨hlost, hgained⟩ := ih
    refine ⟨fun e he => ?_, fun e he => ?_⟩
    · rcases List.mem_append.mp he with he | he
      · exact .inr (isSome_of_mem_run hmap he)
      · exact (hlost e he).imp_left (List.mem_cons_of_mem _)
    · rcases List.mem_cons.mp he with rfl | he
      · have hown : Label.expressionStatement.IsOwn := ⟨by simp, by simp⟩
        have hadd : fusedStatement w first others = _ :=
          add_own (joinAll w first others).2 [(joinAll w first others).1] hown
        refine .inr ⟨_, rfl, ?_⟩
        rw [hrest.isNode.1.kind? (by rw [hadd]; exact Store.next_known _ _), hadd]
        exact Store.kind?_node (Store.get_push_next _ _)
      · exact (hgained e he).imp_left (List.mem_append_right _)

/-- Fusing runs of expression statements keeps all ways. -/
theorem Sequences.Fuses.sameWays (hw : w.Kept strict) (hgrows : w.Grows w') {l : Ref}
    {puts : List (Nat × Ref)} {gone : List Nat} (hl : w.store.get l = .list items)
    (h : Fuses w.store 0 w items puts gone items' w')
    (ht : (w'.refill l items').store.Typed strict) :
    w.store.SameWays (fun _ => False) (w'.refill l items').store (fun _ => False) := by
  obtain ⟨hlost, hgained⟩ := h.trade
  refine sameWays_list hw hgrows hl ht (fun c hc => ?_) fun c hc => ?_
  · refine (hlost _ hc).imp_right fun hstatement => ?_
    obtain ⟨e, he⟩ := Option.isSome_iff_exists.mp hstatement
    exact plain_statement he
  · refine (hgained _ hc).imp_right fun ⟨c', heq, hkind⟩ => ?_
    obtain rfl := Option.some.inj heq
    exact ⟨_, hkind, rfl⟩

/-- Joining an expression statement with the completion behind it keeps all ways. -/
theorem sameWays_completed (hw : w.Kept strict) {l : Ref} {before after : List (Option Ref)}
    {statement next first second : Option Ref} {label : Label} {joined : Ref × Workspace}
    (hjoined : joined = (join w first second).2.add label [(join w first second).1])
    (hgrows : w.Grows joined.2) (hl : w.store.get l = .list (before ++ statement :: next :: after))
    (hstatement : statementExpression? w.store statement = some first)
    (hnext : completion? w.store next = some (label, second))
    (ht : (joined.2.refill l (before ++ some joined.1 :: after)).store.Typed strict) :
    w.store.SameWays (fun _ => False)
      (joined.2.refill l (before ++ some joined.1 :: after)).store (fun _ => False) := by
  have hlabel : isCarrier label := by
    obtain ⟨_, _, _, ⟨rfl, -⟩ | rfl⟩ := completion?_eq hnext
    · exact .inl rfl
    · exact .inr (.inl rfl)
  have hplain : joined.2.store.kind? joined.1 = some label.kind := by
    rw [hjoined, add_own _ _ hlabel.isOwn]
    exact Store.kind?_node (Store.get_push_next _ _)
  refine sameWays_list hw hgrows hl ht (fun c hc => ?_) fun c hc => ?_
  · rcases List.mem_append.mp hc with hc | hc
    · exact .inl (List.mem_append_left _ hc)
    rcases List.mem_cons.mp hc with rfl | hc
    · exact .inr (plain_statement hstatement)
    rcases List.mem_cons.mp hc with rfl | hc
    · exact .inr (plain_completion hnext)
    · exact .inl (List.mem_append_right _ (List.mem_cons_of_mem _ hc))
  · rcases List.mem_append.mp hc with hc | hc
    · exact .inl (List.mem_append_left _ hc)
    rcases List.mem_cons.mp hc with hnew | hc
    · obtain rfl := Option.some.inj hnew
      exact .inr ⟨label.kind, hplain, hlabel.isPlain⟩
    · exact .inl (List.mem_append_right _ (List.mem_cons_of_mem _ (List.mem_cons_of_mem _ hc)))

end Lists

end ScriptSimplifier
