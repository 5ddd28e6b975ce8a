import ScriptSimplifier.Proofs.Store.Planting
import ScriptSimplifier.Proofs.Walk.Orders
import ScriptSimplifier.Syntax.Listing

/-!
# Listings are walks

A listing is made by a recursion over the tree that counts levels itself, and a walk goes over
places that know how they were reached.  A listing has one line for each place that a walk from the
same node enters, in that order and with the depth of the place as its level
(`Walk.listing_is_walk`).  Each place but the first comes below the nearest place before it that
lies less deep (`Seated`), so the levels alone tell what lies below what.
-/

namespace ScriptSimplifier

/-- The name of the field that leads to a node, as shown before the node. -/
def Cursor.heading (c : Cursor) : Text :=
  match c.key? with
  | some (.field name) => Text.ofString name ++ Text.ofString ": "
  | _ => []

/-- The line of a listing for a place: the depth of the place and what is found there. -/
def Cursor.entry (s : Store) (c : Cursor) : Entry :=
  ⟨c.depth,
    match c.element with
    | none => []
    | some r =>
      match s.get r with
      | .node label _ => c.heading ++ label.caption
      | .list items =>
        Text.ofString c.fieldName ++
          (Text.ofString " [" ++ Text.ofNat items.length ++ Text.ofString "]")⟩

/-- All lists at and below an element hold nodes only, so no item is absent. -/
def Store.FullLists (s : Store) (r : Ref) : Prop :=
  ∀ l items, s.Reaches r l → s.get l = .list items →
    ∀ e ∈ items, ∃ n, e = some n ∧ s.isList n = false

theorem Store.FullLists.below {s : Store} {r x : Ref} (h : s.FullLists r) (hx : s.Holds r x) :
    s.FullLists x :=
  fun l items hl => h l items (.head hx hl)

/-- Below a node of a store that obeys the schema all lists hold nodes only. -/
theorem Store.Typed.fullLists {s : Store} {strict : Strictness} (ht : s.Typed strict) {r : Ref}
    (hr : s.isList r = false) : s.FullLists r := by
  intro l items hl
  induction hl generalizing items with
  | refl =>
    intro hget
    simp [isList, hget] at hr
  | @tail p l hp hholds ih =>
    intro hget e he
    cases hp : s.get p with
    | list more =>
      -- what a list holds is a node
      obtain ⟨n, hn, hnode⟩ := ih more hp (some l) ((holds_list_iff hp).mp hholds)
      obtain rfl := Option.some.inj hn
      simp [isList, hget] at hnode
    | node label kids =>
      obtain ⟨f, -, hadmits⟩ :=
        (ht p label kids hp).exists_field ((holds_node_iff hp).mp hholds)
      cases hlist : f.isList with
      | false =>
        rcases (admits_single hlist).mp hadmits with ⟨hnone, -⟩ | hin
        · cases hnone
        · obtain ⟨n, label', kids', heq, hget', -⟩ := isIn_iff.mp hin
          obtain rfl := Option.some.inj heq
          cases hget.symm.trans hget'
      | true =>
        obtain ⟨l', items', heq, hget', hitems⟩ := (admits_list hlist).mp hadmits
        obtain rfl := Option.some.inj heq
        obtain rfl := Cell.list.inj (hget.symm.trans hget')
        obtain ⟨n, label', kids', rfl, hn, -⟩ := isIn_iff.mp (hitems e he)
        exact ⟨n, rfl, by simp [isList, hn]⟩

/-- A place that lies one step below another lies one level deeper. -/
theorem Cursor.depth_eq {c p : Cursor} (h : c.parent? = some p) : c.depth = p.depth + 1 := by
  cases c with
  | root e => cases h
  | step parent key e =>
    obtain rfl : parent = p := Option.some.inj h
    rfl

/-! ## Levels -/

/-- The last position before another one with a level below the given one. -/
def Listing.above? (levels : List Nat) (level : Nat) : (before : Nat) → Option Nat
  | 0 => none
  | i + 1 => if levels[i]?.any (· < level) then some i else above? levels level i

/-- Levels in between that are not below the given one do not count. -/
theorem Listing.above?_eq {outer inner after : List Nat} {p level : Nat} (hp : p < level)
    (hinner : ∀ q ∈ inner, level ≤ q) :
    above? (outer ++ p :: inner ++ after) level (outer.length + (inner.length + 1)) =
      some outer.length := by
  induction inner using List.reverseRecOn generalizing after with
  | nil => simp [above?, hp]
  | append_singleton inner q ih =>
    have hq : level ≤ q := hinner q (by simp)
    have hat :
        (outer ++ p :: (inner ++ [q]) ++ after)[outer.length + (inner.length + 1)]? = some q := by
      have hsplit :
          outer ++ p :: (inner ++ [q]) ++ after = (outer ++ p :: inner) ++ q :: after := by
        simp
      rw [hsplit, List.getElem?_append_right (by simp)]
      simp
    have hlength : outer.length + ((inner ++ [q]).length + 1) =
        outer.length + (inner.length + 1) + 1 := by simp; omega
    have hmore := @ih (q :: after) fun q' hq' => hinner q' (by simp [hq'])
    rw [hlength, above?, hat, if_neg (by simpa using hq)]
    simpa using hmore

namespace Walk

variable {s : Store} {c : Cursor} {r : Ref}

/-! ## The lines of a walk -/

/-- The lines for all places at and below a place, as a walk enters them. -/
def lines (s : Store) (c : Cursor) : List Entry := (Tour.recursive s c).entered.map (Cursor.entry s)

/-- The lines for all places below a place. -/
def linesBelow (s : Store) (c : Cursor) : List Entry := (c.children s).flatMap (lines s)

theorem lines_empty (hs : s.Acyclic) (hc : c.element = none) : lines s c = [] := by
  rw [lines, Tour.recursive_eq hs, hc]
  rfl

theorem lines_eq (hs : s.Acyclic) (hc : c.element = some r) :
    lines s c = c.entry s :: linesBelow s c := by
  rw [lines, Tour.recursive_eq hs, hc, linesBelow]
  simp only [Option.isNone_some, Bool.false_eq_true, if_false, List.map_cons, List.map_flatMap]
  rfl

/-- What a listing has below a place is what a walk enters there. -/
def Listed (s : Store) (c : Cursor) : Prop :=
  ∀ r, c.element = some r →
    (∀ label kids, s.get r = .node label kids →
      fieldListing? c.depth label.fields (kids.map s.tree) = some (linesBelow s c)) ∧
    ∀ items, s.get r = .list items →
      itemListing? (c.depth + 1) (items.map s.tree) = some (linesBelow s c)

/-- The fields of a node: empty ones have no line in the listing and are not entered. -/
theorem fieldListing?_eq (hs : s.Acyclic) {fields : List Field} {kids : List (Option Ref)}
    (h : ∀ p ∈ fields.zip kids, Listed s (.step c (.field p.1.name) p.2)) :
    fieldListing? c.depth fields (kids.map s.tree) =
      some ((fields.zip kids).flatMap fun p => lines s (.step c (.field p.1.name) p.2)) := by
  induction fields generalizing kids with
  | nil => simp [fieldListing?]
  | cons f fields ih =>
    cases kids with
    | nil => simp [fieldListing?]
    | cons e kids =>
      rw [List.zip_cons_cons] at h
      obtain ⟨hhere, hrest⟩ := List.forall_mem_cons.mp h
      rw [List.zip_cons_cons, List.flatMap_cons, List.map_cons]
      cases e with
      | none => simp [fieldListing?, ih hrest, lines_empty hs (c := .step c _ none) rfl]
      | some x =>
        obtain ⟨hnode, hlist⟩ := hhere x rfl
        rw [lines_eq hs (r := x) rfl]
        cases hx : s.get x with
        | node label below =>
          have hbelow := hnode label below hx
          rw [Cursor.depth] at hbelow
          simp [fieldListing?, hs.tree_node hx, ih hrest, hbelow, Cursor.entry, Cursor.element,
            Cursor.depth, Cursor.heading, Cursor.key?, hx]
        | list items =>
          have hbelow := hlist items hx
          rw [Cursor.depth] at hbelow
          simp [fieldListing?, hs.tree_list hx, ih hrest, hbelow, Cursor.entry, Cursor.element,
            Cursor.depth, Cursor.fieldName, Cursor.key?, hx]

/-- The items of a list. -/
theorem itemListing?_eq (hs : s.Acyclic) {places : List (Key × Option Ref)}
    (h : ∀ p ∈ places, Listed s (.step c p.1 p.2) ∧ (∃ i, p.1 = .index i) ∧
      ∃ n, p.2 = some n ∧ s.isList n = false) :
    itemListing? (c.depth + 1) ((places.map Prod.snd).map s.tree) =
      some (places.flatMap fun p => lines s (.step c p.1 p.2)) := by
  induction places with
  | nil => rfl
  | cons p places ih =>
    obtain ⟨⟨hhere, ⟨i, hi⟩, n, hn, hnode⟩, hrest⟩ := List.forall_mem_cons.mp h
    obtain ⟨key, e⟩ := p
    obtain rfl : key = .index i := hi
    obtain rfl : e = some n := hn
    rw [List.map_cons, List.map_cons, List.flatMap_cons, lines_eq hs (r := n) rfl]
    cases hx : s.get n with
    | list items => simp [Store.isList, hx] at hnode
    | node label below =>
      have hbelow := (hhere n rfl).1 label below hx
      rw [Cursor.depth] at hbelow
      simp only [itemListing?, ih hrest]
      simp [Tree.listing?, hs.tree_node hx, hbelow, Cursor.entry, Cursor.element, Cursor.depth,
        Cursor.heading, Cursor.key?, hx]

/-- The induction is on the element of the place: what it holds comes before it. -/
theorem listed (hs : s.Acyclic) (hshaped : s.Shaped) (hfull : s.FullLists r) (c : Cursor)
    (hc : c.element = some r) : Listed s c := by
  induction r using hs.induction generalizing c with
  | step r ih =>
    -- the elements below have their listings by induction
    have hplaces : ∀ p ∈ s.places r, Listed s (.step c p.1 p.2) := by
      intro p hp x hx
      have hholds : s.Holds r x := by
        rw [Store.Holds, ← hx]
        exact (List.of_mem_zip hp).2
      exact ih x hholds (hfull.below hholds) (.step c p.1 p.2) hx x hx
    have hlines : linesBelow s c = (s.places r).flatMap fun p => lines s (.step c p.1 p.2) := by
      rw [linesBelow, hshaped.children_eq hc, List.flatMap_map]
    intro r' hr'
    obtain rfl : r = r' := Option.some.inj (hc.symm.trans hr')
    constructor
    · intro label kids hr
      have hzip : s.places r = (label.fields.zip kids).map fun p => (.field p.1.name, p.2) := by
        simp [Store.places, Store.keys, Store.below_node hr, hr, List.zip_map_left, Prod.map]
      rw [hzip] at hplaces hlines
      rw [hlines, List.flatMap_map]
      exact fieldListing?_eq hs fun p hp => hplaces _ (List.mem_map_of_mem hp)
    · intro items hr
      have hitems : (s.places r).map Prod.snd = items := by
        rw [hshaped.places_snd, Store.below_list hr]
      rw [hlines, ← hitems]
      refine itemListing?_eq hs fun p hp => ⟨hplaces p hp, ?_, ?_⟩
      · have hkey : p.1 ∈ s.keys r := (List.of_mem_zip hp).1
        simp only [Store.keys, hr, List.mem_map] at hkey
        obtain ⟨i, -, hi⟩ := hkey
        exact ⟨i, hi.symm⟩
      · exact hfull r items .refl hr p.2 (hitems ▸ List.mem_map_of_mem hp)

/-- The listing of a node has the lines of the walk from there. -/
theorem entries?_eq (hs : s.Acyclic) (hshaped : s.Shaped) (hr : s.isList r = false)
    (hfull : s.FullLists r) :
    (s.tree (some r)).entries? =
      some ((tour s (.root (some r))).entered.map (Cursor.entry s)) := by
  have hlines : (tour s (.root (some r))).entered.map (Cursor.entry s) =
      lines s (.root (some r)) := by
    rw [tour_eq hs hshaped, lines]
  rw [hlines, lines_eq hs (r := r) rfl]
  cases hget : s.get r with
  | list items => simp [Store.isList, hget] at hr
  | node label kids =>
    have hbelow := (listed hs hshaped hfull (.root (some r)) rfl r rfl).1 label kids hget
    rw [Cursor.depth] at hbelow
    simp [Tree.entries?, Tree.listing?, hs.tree_node hget, hbelow, Cursor.entry, Cursor.element,
      Cursor.depth, Cursor.heading, Cursor.key?, hget]

/-! ## Nesting -/

/-- A place follows others so that the nearest of them that lies less deep is the one that it lies
below. -/
def Seated (above : List Cursor) (c : Cursor) : Prop :=
  ∃ outer p inner, above = outer ++ p :: inner ∧ c.parent? = some p ∧ ∀ q ∈ inner, c.depth ≤ q.depth

/-- Each place of a sequence is seated after those before it. -/
def AllSeated : (above : List Cursor) → List Cursor → Prop
  | _, [] => True
  | above, c :: rest => Seated above c ∧ AllSeated (above ++ [c]) rest

theorem allSeated_append {above places more : List Cursor} :
    AllSeated above (places ++ more) ↔
      AllSeated above places ∧ AllSeated (above ++ places) more := by
  induction places generalizing above with
  | nil => simp [AllSeated]
  | cons c rest ih => simp [AllSeated, ih, and_assoc]

theorem AllSeated.getElem? {above places : List Cursor} (h : AllSeated above places) {i : Nat}
    (hi : places[i]? = some c) : Seated (above ++ places.take i) c := by
  induction places generalizing above i with
  | nil => cases hi
  | cons d rest ih =>
    cases i with
    | zero =>
      obtain rfl : d = c := Option.some.inj hi
      simpa using h.1
    | succ i => simpa using ih h.2 hi

/-- A place lies at most one step deeper than the one before it. -/
theorem Seated.depth_le {above : List Cursor} (h : Seated above c) {d : Cursor}
    (hd : above.getLast? = some d) : c.depth ≤ d.depth + 1 := by
  obtain ⟨outer, p, inner, rfl, hp, hinner⟩ := h
  rcases List.eq_nil_or_concat inner with rfl | ⟨before, last, rfl⟩
  · obtain rfl : p = d := by simpa using hd
    rw [Cursor.depth_eq hp]
  · obtain rfl : last = d := by
      simpa [List.getLast?_append, List.getLast?_cons] using hd
    exact Nat.le_succ_of_le (hinner last (by simp))

/-- The levels of the places before it tell which one a place is seated below. -/
theorem Seated.above? {places : List Cursor} {i : Nat} (h : Seated (places.take i) c)
    (hi : i ≤ places.length) :
    (Listing.above? (places.map Cursor.depth) c.depth i).bind (places[·]?) = c.parent? := by
  obtain ⟨outer, p, inner, htake, hp, hinner⟩ := h
  obtain ⟨after, rfl⟩ : ∃ after, places = outer ++ p :: inner ++ after :=
    ⟨places.drop i, by rw [← htake, List.take_append_drop]⟩
  have hlength := congrArg List.length htake
  rw [List.length_take, min_eq_left hi, List.length_append, List.length_cons] at hlength
  have hlevel : p.depth < c.depth := by
    rw [Cursor.depth_eq hp]
    exact Nat.lt_succ_self _
  have hinner' : ∀ q ∈ inner.map Cursor.depth, c.depth ≤ q := by simpa using hinner
  have habove := @Listing.above?_eq (outer.map Cursor.depth) _ (after.map Cursor.depth) _ _ hlevel
    hinner'
  rw [List.length_map, List.length_map, ← hlength, ← List.map_cons, ← List.map_append,
    ← List.map_append] at habove
  rw [habove, hp]
  simp

/-- Nothing that is entered from a place on lies less deep than the place. -/
theorem depth_le_of_entered (hs : s.Acyclic) {d : Cursor} (hd : d ∈ (Tour.recursive s c).entered) :
    c.depth ≤ d.depth := by
  cases hc : c.element with
  | none => simp [Tour.recursive_eq hs, hc] at hd
  | some r =>
    induction r using hs.induction generalizing c with
    | step r ih =>
      rw [Tour.recursive_eq hs, hc] at hd
      rcases List.mem_cons.mp hd with rfl | hd
      · exact Nat.le_refl _
      · obtain ⟨child, hchild, hd⟩ := List.mem_flatMap.mp hd
        obtain ⟨key, rfl⟩ := Cursor.mem_children hchild
        refine Nat.le_trans (Nat.le_succ _) (?_ : (c.child s key).depth ≤ d.depth)
        cases hx : (c.child s key).element with
        | none => simp [Tour.recursive_eq hs, hx] at hd
        | some x =>
          have hbelow : Cursor.elementBelow s c.element key = some x := hx
          rw [hc] at hbelow
          exact ih x (Cursor.holds_elementBelow hbelow) hd hx

/-- Children that follow one another are seated below the place that was entered before them. -/
theorem allSeated_children (hs : s.Acyclic) {children : List Cursor}
    (h : ∀ d ∈ children, d.parent? = some c ∧ ∀ above, Seated above d →
      AllSeated above (Tour.recursive s d).entered) {outer inner : List Cursor}
    (hinner : ∀ q ∈ inner, c.depth + 1 ≤ q.depth) :
    AllSeated (outer ++ c :: inner) (children.flatMap fun d => (Tour.recursive s d).entered) := by
  induction children generalizing inner with
  | nil => trivial
  | cons d rest ih =>
    obtain ⟨⟨hparent, hd⟩, hrest⟩ := List.forall_mem_cons.mp h
    have hdepth := Cursor.depth_eq hparent
    rw [List.flatMap_cons, allSeated_append]
    refine ⟨hd _ ⟨outer, c, inner, rfl, hparent, fun q hq => hdepth ▸ hinner q hq⟩, ?_⟩
    have hmore : ∀ q ∈ inner ++ (Tour.recursive s d).entered, c.depth + 1 ≤ q.depth := by
      intro q hq
      rcases List.mem_append.mp hq with hq | hq
      · exact hinner q hq
      · exact hdepth ▸ depth_le_of_entered hs hq
    simpa using ih hrest hmore

theorem allSeated_below (hs : s.Acyclic) (r : Ref) (c : Cursor) (hc : c.element = some r)
    (outer : List Cursor) :
    AllSeated (outer ++ [c]) ((c.children s).flatMap fun d => (Tour.recursive s d).entered) := by
  induction r using hs.induction generalizing c outer with
  | step r ih =>
    refine allSeated_children hs (fun d hd => ?_) (by simp)
    obtain ⟨key, rfl⟩ := Cursor.mem_children hd
    refine ⟨rfl, fun above habove => ?_⟩
    rw [Tour.recursive_eq hs]
    cases hx : (c.child s key).element with
    | none => trivial
    | some x =>
      have hbelow : Cursor.elementBelow s c.element key = some x := hx
      rw [hc] at hbelow
      exact ⟨habove, ih x (Cursor.holds_elementBelow hbelow) _ hx above⟩

/-- Every place that a walk enters after the first one is seated after those before it. -/
theorem seated_entered (hs : s.Acyclic) {i : Nat}
    (hi : (Tour.recursive s (.root (some r))).entered[i + 1]? = some c) :
    Seated ((Tour.recursive s (.root (some r))).entered.take (i + 1)) c := by
  have hseated := allSeated_below hs r (.root (some r)) rfl []
  rw [Tour.recursive_eq hs] at hi ⊢
  exact hseated.getElem? hi

/-- The listing of a node is the walk from there.

A listing of a tree in which no list item is absent has one line for each place that a walk enters,
nodes and lists alike, in the order in which the walk enters them, and the level of a line is the
depth of its place.  Each level exceeds the one before it by at most one, and the levels alone tell
of each place which one it lies below: the nearest one before it with a lesser level. -/
theorem listing_is_walk (hs : s.Acyclic) (hshaped : s.Shaped) (hr : s.isList r = false)
    (hfull : s.FullLists r) :
    ∃ entries, (s.tree (some r)).entries? = some entries ∧
      entries = (tour s (.root (some r))).entered.map (Cursor.entry s) ∧
      entries.map Entry.depth = (tour s (.root (some r))).entered.map Cursor.depth ∧
      entries.IsChain (fun before next => next.depth ≤ before.depth + 1) ∧
      ∀ (i : Nat) (c : Cursor), (tour s (.root (some r))).entered[i]? = some c →
        c.parent? = (Listing.above? (entries.map Entry.depth) c.depth i).bind
          ((tour s (.root (some r))).entered[·]?) := by
  have hlines := entries?_eq hs hshaped hr hfull
  rw [tour_eq hs hshaped] at hlines ⊢
  have hdepths : ((Tour.recursive s (.root (some r))).entered.map (Cursor.entry s)).map
      Entry.depth = (Tour.recursive s (.root (some r))).entered.map Cursor.depth := by
    rw [List.map_map]
    rfl
  refine ⟨_, hlines, rfl, hdepths, ?_, ?_⟩
  · rw [List.isChain_map, List.isChain_iff_getElem]
    intro i hi
    refine (seated_entered hs (List.getElem?_eq_getElem hi)).depth_le ?_
    rw [List.getLast?_take]
    simp
  · intro i c hi
    rw [hdepths]
    cases i with
    | zero =>
      rw [Tour.recursive_eq hs] at hi
      obtain rfl : Cursor.root (some r) = c := Option.some.inj hi
      rfl
    | succ i =>
      have hlt := (List.getElem?_eq_some_iff.mp hi).1
      exact ((seated_entered hs hi).above? (Nat.le_of_lt hlt)).symm

/-- The tree of `if (x) f(0);`. -/
def guardedCall : Tree :=
  .node .script
    [.list
      [.node .ifStatement
        [.node (.identifierExpression "x") [],
         .node .expressionStatement
          [.node .callExpression
            [.node (.identifierExpression "f") [],
             .list [.node (.numericLiteral (.zero false)) []]]],
         .missing]]]

/-- The statement has no alternate, which has no line and is not entered. -/
theorem listing_is_walk_guardedCall :
    ∃ (s : Store) (r : Ref) (entries : List Entry),
      s.Acyclic ∧ s.Shaped ∧ s.isList r = false ∧ s.FullLists r ∧
      (s.tree (some r)).entries? = some entries ∧
      entries.map Entry.depth = [0, 1, 2, 3, 3, 4, 5, 5, 6] ∧
      (tour s (.root (some r))).entered.map Cursor.depth = [0, 1, 2, 3, 3, 4, 5, 5, 6] := by
  let s := (Store.empty.plant guardedCall).2
  let r : Ref := .cell 8
  have horderly : s.Orderly .schema :=
    (Store.plants_plant (t := guardedCall) (by decide) Store.orderly_empty).orderly
  have hr : s.isList r = false := by decide
  obtain ⟨entries, hentries, -, hdepths, -, -⟩ :=
    listing_is_walk horderly.acyclic horderly.typed.shaped hr (horderly.typed.fullLists hr)
  have hlevels : (tour s (.root (some r))).entered.map Cursor.depth =
      [0, 1, 2, 3, 3, 4, 5, 5, 6] := by decide +kernel
  exact ⟨s, r, entries, horderly.acyclic, horderly.typed.shaped, hr, horderly.typed.fullLists hr,
    hentries, hdepths.trans hlevels, hlevels⟩

end Walk

end ScriptSimplifier
