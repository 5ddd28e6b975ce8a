import ScriptSimplifier.Proofs.Pass.Unvisited
import ScriptSimplifier.Proofs.Rule.Normalization

/-!
# Quiet places are settled

Where no simplification proposes anything, at a place or below it, the element there has its normal
form (`settled_of_quiet`).  Whatever the computation of normal forms does to a list or node, the
simplification that does the same to the store finds its occasion: two expression statements in a
row are part of a run, and what is sketched as a value has that value.
-/

namespace ScriptSimplifier

open Workspace Sequences Statements Folding

variable {strict : Strictness} {sims : List Simplification} {w : Workspace}

/-! ## Quiet lists -/

theorem sketch_statement (hs : w.store.Acyclic) {item : Option Ref} {e : Sketch}
    (h : (w.sketch item).statement? = some e) :
    (statementExpression? w.store item).isSome = true := by
  obtain ⟨r, kids, rfl, -, hr, hkids⟩ := sketch_eq_node hs (Sketch.eq_of_statement? h)
  match kids, hkids with
  | [e], _ => simp [statementExpression?, hr]

theorem sketch_completion (hs : w.store.Acyclic) {item : Option Ref} {label : Label} {e : Sketch}
    (h : (w.sketch item).completion? = some (label, e)) :
    (completion? w.store item).isSome = true := by
  obtain ⟨hitem, hlabel⟩ := Sketch.eq_of_completion? h
  obtain ⟨r, kids, rfl, -, hr, hkids⟩ := sketch_eq_node hs hitem
  match kids, hkids with
  | [x], hkids =>
    obtain ⟨rfl, hne⟩ | rfl := hlabel
    · cases x with
      | none => exact absurd (List.cons.inj hkids).1 hne
      | some x => simp [completion?, hr]
    · simp [completion?, hr]

theorem sketch_isJump (hs : w.store.Acyclic) {item : Option Ref}
    (h : (w.sketch item).isJump = true) : isJump w.store item = true := by
  cases hitem : w.sketch item with
  | missing | constant _ | list _ => simp [hitem, Sketch.isJump] at h
  | node label children =>
    obtain ⟨r, kids, rfl, -, hr, -⟩ := sketch_eq_node hs hitem
    rw [isJump_node hr children, ← hitem]
    exact h

variable {place : Cursor} {before after : List (Option Ref)} {item next : Option Ref}

theorem dropUnreachable_isSome
    (hitems : listField? w.store place = some (before ++ item :: next :: after))
    (hjump : isJump w.store item = true) : (dropUnreachable place w).isSome = true := by
  have hlength : before.length < (before ++ item :: next :: after).length := by simp
  have hat : (before ++ item :: next :: after)[before.length] = item := by simp
  cases hfind : (before ++ item :: next :: after).findIdx? (isJump w.store) with
  | none =>
    rw [List.findIdx?_eq_none_iff] at hfind
    simp [hfind item (by simp)] at hjump
  | some j =>
    obtain ⟨_, _, hfirst⟩ := List.findIdx?_eq_some_iff_getElem.mp hfind
    have hle : j ≤ before.length := by
      by_contra hlt
      exact hfirst before.length (by omega) (by rw [hat]; exact hjump)
    have hne : j + 1 ≠ (before ++ item :: next :: after).length := by
      simp only [List.length_append, List.length_cons]
      omega
    simp [dropUnreachable, hitems, hfind]
    omega

theorem fuseRuns_isSome
    (hitems : listField? w.store place = some (before ++ item :: next :: after))
    (hitem : (statementExpression? w.store item).isSome = true)
    (hnext : (statementExpression? w.store next).isSome = true) :
    (fuseRuns place w).isSome = true := by
  rw [fuseRuns_isSome_iff hitems]
  intro hchain
  have hapart : together w.store item next = false :=
    List.isChain_iff_forall_rel_of_append_cons_cons.mp hchain rfl
  simp [together, hitem, hnext] at hapart

theorem fuseCompletion_isSome
    (hitems : listField? w.store place = some (before ++ item :: next :: after))
    (hitem : (statementExpression? w.store item).isSome = true)
    (hnext : (completion? w.store next).isSome = true) :
    (fuseCompletion place w).isSome = true := by
  have hpair : ∀ position,
      (pairFrom? w.store position (before ++ item :: next :: after)).isSome = true := by
    obtain ⟨e, he⟩ := Option.isSome_iff_exists.mp hitem
    obtain ⟨⟨label, x⟩, hx⟩ := Option.isSome_iff_exists.mp hnext
    clear hitems
    induction before with
    | nil =>
      intro position
      simp [pairFrom?, he, hx]
    | cons first before ih =>
      intro position
      rw [List.cons_append]
      cases hrest : before ++ item :: next :: after with
      | nil => simp at hrest
      | cons second rest =>
        rw [pairFrom?]
        split
        · rfl
        · rw [← hrest]
          exact ih (position + 1)
  obtain ⟨pair, hpair⟩ := Option.isSome_iff_exists.mp (hpair 0)
  rw [fuseCompletion, hitems]
  simp [hpair]

/-- Items of a list where no simplification proposes anything have nothing to drop and nothing to
fuse. -/
theorem settle_quiet (hs : w.store.Acyclic) {items : List (Option Ref)}
    (hitems : listField? w.store place = some items)
    (hquiet : ¬ Fires sims w place) :
    Sketch.settle sims (items.map w.sketch) = items.map w.sketch := by
  refine Sketch.settle_eq_self (List.isChain_map _ |>.mpr
    (List.isChain_iff_forall_rel_of_append_cons_cons.mpr ?_))
  rintro item next before after rfl
  refine ⟨fun ⟨hdrop, hjump⟩ => ?_, ?_⟩
  · exact hquiet ⟨_, hdrop, dropUnreachable_isSome hitems (sketch_isJump hs hjump)⟩
  · unfold Sketch.fuse?
    split
    · rename_i e f he hf
      refine if_neg fun hfusion => hquiet ⟨_, hfusion, ?_⟩
      exact fuseRuns_isSome hitems (sketch_statement hs he) (sketch_statement hs hf)
    · rename_i e label x he _ hx
      refine if_neg fun hfusion => hquiet ⟨_, hfusion, ?_⟩
      exact fuseCompletion_isSome hitems (sketch_statement hs he) (sketch_completion hs hx)
    · rfl

/-! ## Quiet nodes -/

theorem valueOf?_of_sketch (hs : w.store.Acyclic) {e : Option Ref} {v : Value}
    (h : (w.sketch e).value? = some v) : w.valueOf? e = some v := by
  cases hsketch : w.sketch e with
  | missing | list _ => simp [hsketch, Sketch.value?] at h
  | constant u =>
    obtain ⟨r, rfl, hr⟩ := sketch_eq_constant hs hsketch
    rw [hsketch] at h
    obtain rfl : u = v := Option.some.inj h
    simp [Workspace.valueOf?, hr]
  | node label children =>
    obtain ⟨r, kids, rfl, hfree, hr, -⟩ := sketch_eq_node hs hsketch
    rw [hsketch] at h
    -- only literals show a value
    cases label <;> simp_all [Workspace.valueOf?, Sketch.value?, Label.value?]

variable {r : Ref} {kids : List (Option Ref)}

theorem node?_of_element {label : Label} (hr : place.element = some r)
    (hget : w.store.get r = .node label kids) : place.node? w.store = some r := by
  simp [Cursor.node?, hr, Store.isList, hget]

theorem sketch_eq_block (hs : w.store.Acyclic) {e : Option Ref} {children : List Sketch}
    (h : w.sketch e = .node .block [.list children]) :
    ∃ block list items, e = some block ∧ w.store.get block = .node .block [some list] ∧
      w.store.get list = .list items ∧ children = items.map w.sketch := by
  obtain ⟨block, kids, rfl, -, hblock, hkids⟩ := sketch_eq_node hs h
  obtain ⟨l, rfl, hl⟩ := List.map_eq_singleton_iff.mp hkids.symm
  obtain ⟨list, items, rfl, hlist, hitems⟩ := sketch_eq_list hs hl
  exact ⟨block, list, items, rfl, hblock, hlist, hitems⟩

theorem flattenBlock_isSome (hw : w.Kept strict) (hr : place.element = some r)
    (hget : w.store.get r = .node .blockStatement kids) {e : Sketch}
    (h : Sketch.flatten? (kids.map w.sketch) = some e) : (flattenBlock place w).isSome = true := by
  have hshort : ∃ children, kids.map w.sketch = [.node .block [.list children]] ∧
      children.length ≤ 1 := by
    unfold Sketch.flatten? at h
    split at h
    · exact ⟨[], ‹_›, by simp⟩
    · exact ⟨_, ‹_›, by simp⟩
    · cases h
  obtain ⟨children, hkids, hlength⟩ := hshort
  obtain ⟨b, rfl, hb⟩ := List.map_eq_singleton_iff.mp hkids
  obtain ⟨block, list, items, rfl, hblock, hlist, rfl⟩ := sketch_eq_block hw.acyclic hb
  obtain ⟨list', items', hblock', hlist', hitems⟩ := block_list hw.typed hget
  obtain ⟨-, hlists⟩ := Cell.node.inj (hblock.symm.trans hblock')
  obtain rfl : list = list' := by simpa using hlists
  obtain rfl : items = items' := Cell.list.inj (hlist.symm.trans hlist')
  rw [flattenBlock, node?_of_element hr hget]
  rw [List.length_map] at hlength
  obtain _ | ⟨statement, _ | ⟨next, rest⟩⟩ := items
  · simp [hget, hitems]
  · simp [hget, hitems]
  · simp at hlength

/-- The parts of an if statement whose branches carry something. -/
theorem sketch_eq_branches (hs : w.store.Acyclic) {label : Label} {test x y : Sketch}
    (h : kids.map w.sketch = [test, .node label [x], .node label [y]]) :
    ∃ t c a e f, kids = [t, some c, some a] ∧ w.store.get c = .node label [e] ∧
      w.store.get a = .node label [f] ∧ w.sketch e = x ∧ w.sketch f = y := by
  obtain ⟨t, branches, rfl, -, hbranches⟩ := List.map_eq_cons_iff.mp h
  obtain ⟨c, rest, rfl, hc, hrest⟩ := List.map_eq_cons_iff.mp hbranches
  obtain ⟨a, rfl, ha⟩ := List.map_eq_singleton_iff.mp hrest
  obtain ⟨c, ckids, rfl, -, hcget, hckids⟩ := sketch_eq_node hs hc
  obtain ⟨a, akids, rfl, -, haget, hakids⟩ := sketch_eq_node hs ha
  obtain ⟨e, rfl, he⟩ := List.map_eq_singleton_iff.mp hckids.symm
  obtain ⟨f, rfl, hf⟩ := List.map_eq_singleton_iff.mp hakids.symm
  exact ⟨t, c, a, e, f, rfl, hcget, haget, he, hf⟩

theorem lowerIf_isSome (hs : w.store.Acyclic) (hr : place.element = some r)
    (hget : w.store.get r = .node .ifStatement kids) {e : Sketch}
    (h : Sketch.lower? sims (kids.map w.sketch) = some e) : (lowerIf place w).isSome = true := by
  have hplace := node?_of_element hr hget
  unfold Sketch.lower? at h
  split at h
  · cases h
  · rename_i hnot hkids
    obtain ⟨t, c, a, x, y, rfl, hc, ha, rfl, rfl⟩ := sketch_eq_branches hs hkids
    refine (lowerIf_returned hr hget hc ha).mpr ?_
    rintro ⟨rfl, rfl⟩
    exact hnot rfl rfl
  · rename_i hkids
    obtain ⟨t, c, a, x, y, rfl, hc, ha, -, -⟩ := sketch_eq_branches hs hkids
    simp [lowerIf, hplace, hget, hc, ha]
  · rename_i hkids
    obtain ⟨t, c, a, x, y, rfl, hc, ha, -, -⟩ := sketch_eq_branches hs hkids
    simp [lowerIf, hplace, hget, hc, ha]
  · cases h

theorem foldUnary_isSome (place : Cursor) (hs : w.store.Acyclic) {operator : Text} {e : Sketch}
    (h : Sketch.foldUnary? operator (kids.map w.sketch) = some e) :
    ∃ operand, kids = [operand] ∧ (foldUnary place w operator operand).isSome = true := by
  match kids, h with
  | [operand], h =>
    simp only [List.map_cons, List.map_nil, Sketch.foldUnary?, Option.bind_eq_bind,
      Option.bind_eq_some_iff] at h
    obtain ⟨u, hu, v, hv, -⟩ := h
    exact ⟨operand, rfl, by simp [foldUnary, valueOf?_of_sketch hs hu, hv]⟩

theorem foldBinary_isSome (place : Cursor) (hs : w.store.Acyclic) {operator : Text} {e : Sketch}
    (h : Sketch.foldBinary? operator (kids.map w.sketch) = some e) :
    ∃ left right, kids = [left, right] ∧
      (foldBinary place w operator left right).isSome = true := by
  match kids, h with
  | [left, right], h =>
    simp only [List.map_cons, List.map_nil, Sketch.foldBinary?, Option.bind_eq_bind,
      Option.bind_eq_some_iff] at h
    obtain ⟨a, ha, b, hb, v, hv, -⟩ := h
    exact ⟨left, right, rfl, by
      simp [foldBinary, valueOf?_of_sketch hs ha, valueOf?_of_sketch hs hb, hv]⟩

theorem select_isSome (hs : w.store.Acyclic) {e : Sketch}
    (h : Sketch.select? (kids.map w.sketch) = some e) :
    ∃ test consequent alternate v, kids = [test, consequent, alternate] ∧
      w.valueOf? test = some v := by
  match kids, h with
  | [test, consequent, alternate], h =>
    obtain ⟨v, hv, -⟩ := Option.map_eq_some_iff.mp h
    exact ⟨test, consequent, alternate, v, rfl, valueOf?_of_sketch hs hv⟩

/-- What reduces is reduced by a simplification. -/
theorem fires_of_reduce (hw : w.Kept strict) (hr : place.element = some r) {label : Label}
    (hfree : w.pool.valueOf? r = none) (hget : w.store.get r = .node label kids) {e : Sketch}
    (h : Sketch.reduce? sims label (kids.map w.sketch) = some e) : Fires sims w place := by
  have hplace := node?_of_element hr hget
  have hconstant : w.pool.isConstant (some r) = false := by
    simp [Pool.isConstant, hfree]
  cases label with
  | blockStatement =>
    obtain ⟨hmem, h⟩ := Option.ite_none_right_eq_some.mp h
    exact ⟨.deblock, hmem, flattenBlock_isSome hw hr hget h⟩
  | ifStatement =>
    obtain ⟨hmem, h⟩ := Option.ite_none_right_eq_some.mp h
    exact ⟨.ifToConditional, hmem, lowerIf_isSome hw.acyclic hr hget h⟩
  | conditionalExpression =>
    obtain ⟨hmem, h⟩ := Option.ite_none_right_eq_some.mp h
    obtain ⟨test, c, a, v, rfl, hv⟩ := select_isSome hw.acyclic h
    exact ⟨.foldConditional, hmem, by
      simp [Simplification.propose, foldConditional, hplace, hget, hv]⟩
  | unaryExpression operator =>
    obtain ⟨hmem, h⟩ := Option.ite_none_right_eq_some.mp h
    obtain ⟨operand, rfl, hsome⟩ := foldUnary_isSome place hw.acyclic h
    -- both folding rules compute negations
    rcases hmem with hmem | hmem
    · exact ⟨.foldConstant, hmem, by
        simpa [Simplification.propose, foldOperation, hplace, hget, hconstant] using hsome⟩
    · exact ⟨.foldConditional, hmem, by
        simpa [Simplification.propose, foldConditional, hplace, hget, hconstant] using hsome⟩
  | binaryExpression operator =>
    obtain ⟨hmem, h⟩ := Option.ite_none_right_eq_some.mp h
    obtain ⟨left, right, rfl, hsome⟩ := foldBinary_isSome place hw.acyclic h
    exact ⟨.foldConstant, hmem, by
      simpa [Simplification.propose, foldOperation, hplace, hget, hconstant] using hsome⟩
  | _ => cases h

theorem settled_node (hw : w.Kept strict) (hr : place.element = some r) {label : Label}
    (hfree : w.pool.valueOf? r = none) (hget : w.store.get r = .node label kids)
    (hquiet : ¬ Fires sims w place) (hkids : ∀ e ∈ kids, w.Settled sims e) :
    w.Settled sims (some r) := by
  rw [Settled, normal_node hw.acyclic hfree hget, sketch_node hw.acyclic hfree hget,
    List.map_congr_left hkids, Sketch.reduce]
  cases hreduce : Sketch.reduce? sims label (kids.map w.sketch) with
  | none => rfl
  | some e => exact absurd (fires_of_reduce hw hr hfree hget hreduce) hquiet

/-! ## Quiet trees -/

variable {root : Ref}

/-- A list of the tree stands in a list field. -/
theorem listField?_of_live (ht : w.store.Typed strict) (hroot : w.store.isList root = false)
    (hc : place.Live w.store root) (hr : place.element = some r) {items : List (Option Ref)}
    (hget : w.store.get r = .list items) : listField? w.store place = some items := by
  have hlist : w.store.isList r = true := by simp [Store.isList, hget]
  obtain ⟨parent, name, owner, rfl, -, howner, hnode, hholds⟩ :=
    hc.list_parent ht hroot hr hlist
  cases hcell : w.store.get owner with
  | list others => simp [Store.isList, hcell] at hnode
  | node label kids =>
    have hplaces : (Key.field name, some r) ∈
        (label.fields.map fun f => Key.field f.name).zip kids := by
      simpa [Store.HoldsAt, Store.places, Store.keys, Store.below, Cell.below, hcell] using hholds
    obtain ⟨i, hi⟩ := List.mem_iff_getElem?.mp hplaces
    obtain ⟨hkey, hkid⟩ := List.getElem?_zip_eq_some.mp hi
    rw [List.getElem?_map] at hkey
    obtain ⟨f, hf, hname⟩ := Option.map_eq_some_iff.mp hkey
    obtain rfl : f.name = name := Key.field.inj hname
    have hadmits := (ht owner label kids hcell).admits (f, some r)
      (List.mem_iff_getElem?.mpr ⟨i, List.getElem?_zip_eq_some.mpr ⟨hf, hkid⟩⟩)
    simp only [Store.admits, hget, Bool.and_eq_true] at hadmits
    have hl : (Cursor.step parent (.field f.name) (some r)).list? w.store = some r := by
      simp [Cursor.list?, hr, hlist]
    have hparent := node?_of_element howner hcell
    simp [listField?, hl, hparent, Cursor.parent?, Cursor.fieldName, Cursor.key?,
      Store.kind?_node hcell, Kind.isListField, Kind.field?_eq hf, hadmits.1, Store.items?, hget]

/-- Where no rule fires at a place or below it, everything is settled. -/
theorem settled_of_quiet (hw : w.Kept strict) (hroot : w.store.isList root = false)
    {c : Cursor} (hc : c.Live w.store root)
    (hquiet : ∀ d, d.Live w.store root → c.Above d → ¬ Fires sims w d) :
    w.Settled sims c.element := by
  obtain ⟨r, hr⟩ := hc.element_isSome
  rw [hr]
  -- from below: what fires below a part fires below the whole
  induction r using hw.acyclic.induction generalizing c with
  | step r ih =>
    have hbelow : ∀ e ∈ w.store.below r, w.Settled sims e := by
      intro e he
      cases e with
      | none => exact settled_none
      | some k =>
        obtain ⟨key, hholds⟩ := hw.typed.shaped.holdsAt_of_holds (s := w.store) he
        have hlive : (Cursor.step c key (some k)).Live w.store root :=
          ⟨hc, r, k, hr, rfl, hholds⟩
        have habove : c.Above (.step c key (some k)) := .inr (Cursor.above_refl c)
        exact ih k he hlive (fun d hd hbelow => hquiet d hd (habove.trans hbelow)) rfl
    have hhere := hquiet c hc (Cursor.above_refl c)
    cases hvalue : w.pool.valueOf? r with
    | some v =>
      rw [Settled, sketch, normal_fragment hw.acyclic hvalue, normal_fragment hw.acyclic hvalue]
    | none =>
      cases hget : w.store.get r with
      | node label kids =>
        refine settled_node hw hr hvalue hget hhere fun e he => hbelow e ?_
        simpa [Store.below, hget, Cell.below] using he
      | list items =>
        have hitems : ∀ e ∈ items, w.Settled sims e := fun e he => hbelow e (by
          simpa [Store.below, hget, Cell.below] using he)
        rw [Settled, normal_list hw.acyclic hvalue hget, sketch_list hw.acyclic hvalue hget,
          List.map_congr_left hitems]
        exact congrArg _ (settle_quiet hw.acyclic
          (listField?_of_live hw.typed hroot hc hr hget) hhere)

end ScriptSimplifier
