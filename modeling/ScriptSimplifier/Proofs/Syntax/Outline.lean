import ScriptSimplifier.Proofs.SExpression.RoundTrip
import ScriptSimplifier.Proofs.Syntax.WellFormed
import ScriptSimplifier.Proofs.Text.Codes

/-!
# Outlines of trees

The outline of a tree keeps its shape and the kinds of its nodes and forgets every attribute.  The
kinds in pre-order determine the outline, because each kind fixes how many children follow and lists
are enclosed in brackets (`kinds_unique`).  In a snapshot the kinds are quoted and never contain a
quote, so a snapshot determines the outline and the source (`snapshot_unique`).
-/

namespace ScriptSimplifier

mutual

/-- The tree with all attributes empty. -/
def Tree.outline : Tree → Tree
  | .missing => .missing
  | .node label children => .node (.blank label.kind) (outlineAll children)
  | .list items => .list (outlineAll items)

/-- The outlines of some trees. -/
def outlineAll : List Tree → List Tree
  | [] => []
  | t :: rest => t.outline :: outlineAll rest

end

theorem blank_inj {k k' : Kind} (h : Label.blank k = Label.blank k') : k = k' := by
  rw [← Label.kind_blank k, h, Label.kind_blank]

/-! ## Kinds in pre-order -/

theorem name_inj {k k' : Kind} (h : k.name = k'.name) : k = k' :=
  Option.some.inj ((SExpression.kind_name k).2.symm.trans (h ▸ (SExpression.kind_name k').2))

/-- The signs between the names of kinds are no such names. -/
theorem name_ne {k : Kind} {word : Text} (h : SExpression.isPlainName word = false) :
    k.name ≠ word := by
  rintro rfl
  rw [(SExpression.kind_name k).1] at h
  exact absurd h (by decide)

/-- The kinds of an element start with a word, and it does not close a list. -/
theorem kinds_front (t : Tree) :
    ∃ word more, t.kinds = word :: more ∧ word ≠ Text.ofString "]" := by
  cases t with
  | missing => exact ⟨_, _, rfl, by decide⟩
  | node label children => exact ⟨_, _, by rw [Tree.kinds], name_ne (by decide)⟩
  | list items => exact ⟨_, _, by rw [Tree.kinds], by decide⟩

/-- The kinds of an element tell its outline and where they end. -/
def Tree.Kinds (t : Tree) : Prop :=
  ∀ u : Tree, u.allNodes Tree.nodeShaped = true → ∀ {rest rest' : List Text},
    t.kinds ++ rest = u.kinds ++ rest' → t.outline = u.outline ∧ rest = rest'

/-- As many elements on either side. -/
theorem kindsOfAll_unique {ts us : List Tree} (h : ∀ t ∈ ts, t.Kinds)
    (hus : ∀ u ∈ us, u.allNodes Tree.nodeShaped = true) (hlength : ts.length = us.length)
    {rest rest' : List Text} (heq : kindsOfAll ts ++ rest = kindsOfAll us ++ rest') :
    outlineAll ts = outlineAll us ∧ rest = rest' := by
  induction ts generalizing us with
  | nil =>
    obtain rfl := List.length_eq_zero_iff.mp hlength.symm
    exact ⟨rfl, heq⟩
  | cons t ts ih =>
    obtain ⟨u, us, rfl⟩ := List.exists_cons_of_length_eq_add_one hlength.symm
    obtain ⟨ht, hts⟩ := List.forall_mem_cons.mp h
    obtain ⟨hu, hus⟩ := List.forall_mem_cons.mp hus
    rw [kindsOfAll, kindsOfAll, List.append_assoc, List.append_assoc] at heq
    obtain ⟨hhere, heq⟩ := ht u hu heq
    obtain ⟨hbehind, heq⟩ := ih hts hus (by simpa using hlength) heq
    exact ⟨by rw [outlineAll, outlineAll, hhere, hbehind], heq⟩

/-- Elements up to a closing bracket. -/
theorem kindsOfAll_closed {ts us : List Tree} (h : ∀ t ∈ ts, t.Kinds)
    (hus : ∀ u ∈ us, u.allNodes Tree.nodeShaped = true) {rest rest' : List Text}
    (heq : kindsOfAll ts ++ Text.ofString "]" :: rest =
      kindsOfAll us ++ Text.ofString "]" :: rest') :
    outlineAll ts = outlineAll us ∧ rest = rest' := by
  induction ts generalizing us with
  | nil =>
    cases us with
    | nil => exact ⟨rfl, (List.cons.inj heq).2⟩
    | cons u us =>
      obtain ⟨word, more, hkinds, hword⟩ := kinds_front u
      rw [kindsOfAll, kindsOfAll, hkinds] at heq
      exact absurd (List.cons.inj heq).1.symm hword
  | cons t ts ih =>
    obtain ⟨ht, hts⟩ := List.forall_mem_cons.mp h
    cases us with
    | nil =>
      obtain ⟨word, more, hkinds, hword⟩ := kinds_front t
      rw [kindsOfAll, kindsOfAll, hkinds] at heq
      exact absurd (List.cons.inj heq).1 hword
    | cons u us =>
      obtain ⟨hu, hus⟩ := List.forall_mem_cons.mp hus
      rw [kindsOfAll, kindsOfAll, List.append_assoc, List.append_assoc] at heq
      obtain ⟨hhere, heq⟩ := ht u hu heq
      obtain ⟨hbehind, heq⟩ := ih hts hus heq
      exact ⟨by rw [outlineAll, outlineAll, hhere, hbehind], heq⟩

theorem kinds_unique {t : Tree} (ht : t.allNodes Tree.nodeShaped = true) : t.Kinds := by
  induction t using Tree.induction with
  | missing =>
    intro u _ rest rest' heq
    cases u with
    | missing => exact ⟨rfl, (List.cons.inj heq).2⟩
    | node label children =>
      rw [Tree.kinds, Tree.kinds] at heq
      exact absurd (List.cons.inj heq).1.symm (name_ne (by decide))
    | list items =>
      rw [Tree.kinds, Tree.kinds] at heq
      exact absurd (List.cons.inj heq).1 (by decide)
  | node label children ih =>
    intro u hu rest rest' heq
    obtain ⟨hlength, hchildren⟩ := allNodes_node.mp ht
    cases u with
    | missing =>
      rw [Tree.kinds, Tree.kinds] at heq
      exact absurd (List.cons.inj heq).1 (name_ne (by decide))
    | node label' children' =>
      obtain ⟨hlength', hchildren'⟩ := allNodes_node.mp hu
      rw [Tree.kinds, Tree.kinds] at heq
      obtain ⟨hname, heq⟩ := List.cons.inj heq
      have hkind := name_inj hname
      -- the kind fixes how many children follow
      simp only [Tree.nodeShaped, Label.fields, beq_iff_eq] at hlength hlength'
      obtain ⟨hbelow, heq⟩ := kindsOfAll_unique (fun t ht => ih t ht (hchildren t ht)) hchildren'
        (by rw [hlength, hlength', hkind]) heq
      exact ⟨by rw [Tree.outline, Tree.outline, hkind, hbelow], heq⟩
    | list items =>
      rw [Tree.kinds, Tree.kinds] at heq
      exact absurd (List.cons.inj heq).1 (name_ne (by decide))
  | list items ih =>
    intro u hu rest rest' heq
    have hitems := allNodes_list.mp ht
    cases u with
    | missing =>
      rw [Tree.kinds, Tree.kinds] at heq
      exact absurd (List.cons.inj heq).1 (by decide)
    | node label children =>
      rw [Tree.kinds, Tree.kinds] at heq
      exact absurd (List.cons.inj heq).1.symm (name_ne (by decide))
    | list items' =>
      rw [Tree.kinds, Tree.kinds, List.cons_append, List.cons_append, List.append_assoc,
        List.append_assoc] at heq
      -- the items end at the first bracket that closes none of theirs
      obtain ⟨hbelow, heq⟩ := kindsOfAll_closed (fun t ht => ih t ht (hitems t ht))
        (allNodes_list.mp hu) (List.cons.inj heq).2
      exact ⟨by rw [Tree.outline, Tree.outline, hbelow], heq⟩

/-! ## Snapshots -/

/-- No kind has a quote in it. -/
theorem quote_notMem_kinds (t : Tree) : ∀ word ∈ t.kinds, Text.ascii '"' ∉ word := by
  have hname : ∀ k : Kind, Text.ascii '"' ∉ k.name := by
    intro k hmem
    have hplain := (SExpression.kind_name k).1
    rw [SExpression.isPlainName, Bool.and_eq_true, List.all_eq_true] at hplain
    exact absurd (hplain.2 _ hmem) (by decide)
  have hall : ∀ {ts : List Tree}, (∀ t ∈ ts, ∀ word ∈ t.kinds, Text.ascii '"' ∉ word) →
      ∀ word ∈ kindsOfAll ts, Text.ascii '"' ∉ word := by
    intro ts h
    induction ts with
    | nil => simp [kindsOfAll]
    | cons t rest ih =>
      obtain ⟨hhere, hrest⟩ := List.forall_mem_cons.mp h
      rw [kindsOfAll]
      exact List.forall_mem_append.mpr ⟨hhere, ih hrest⟩
  induction t using Tree.induction with
  | missing =>
    rw [Tree.kinds]
    exact List.forall_mem_singleton.mpr (by decide)
  | node label children ih =>
    rw [Tree.kinds]
    exact List.forall_mem_cons.mpr ⟨hname label.kind, hall ih⟩
  | list items ih =>
    rw [Tree.kinds]
    exact List.forall_mem_cons.mpr ⟨by decide, List.forall_mem_append.mpr
      ⟨hall ih, List.forall_mem_singleton.mpr (by decide)⟩⟩

/-- A word between quotes. -/
def quoted (word : Text) : Text := Text.ascii '"' :: (word ++ [Text.ascii '"'])

theorem quoted_tells {word word' : Text} (h : Text.ascii '"' ∉ word)
    (h' : Text.ascii '"' ∉ word') : Text.Tells (fun _ => True) quoted word word' := by
  have hall : ∀ {word : Text}, Text.ascii '"' ∉ word → ∀ b ∈ word, (b != Text.ascii '"') = true := by
    intro word h b hb
    exact bne_iff_ne.mpr fun heq => h (heq ▸ hb)
  intro u v _ _ heq
  simp only [quoted, List.cons_append, List.append_assoc] at heq
  obtain ⟨rfl, hrest⟩ := Text.tells_class (hall h) (hall h') (Text.stops_cons (by decide) _)
    (Text.stops_cons (by decide) _) (List.cons.inj heq).2
  exact ⟨rfl, (List.cons.inj hrest).2⟩

/-- Quoted words behind commas, up to a bracket. -/
theorem quotedAll_unique {words words' : List Text} (h : ∀ word ∈ words, Text.ascii '"' ∉ word)
    (h' : ∀ word ∈ words', Text.ascii '"' ∉ word) {rest rest' : Text}
    (heq : words.flatMap (fun word => Text.ofString "," ++ quoted word) ++ Text.ascii ']' :: rest =
      words'.flatMap (fun word => Text.ofString "," ++ quoted word) ++ Text.ascii ']' :: rest') :
    words = words' ∧ rest = rest' := by
  have hcomma : Text.ofString "," = [Text.ascii ','] := by decide
  have hdiffer : Text.ascii ',' ≠ Text.ascii ']' := by decide
  induction words generalizing words' with
  | nil =>
    cases words' with
    | nil => exact ⟨rfl, (List.cons.inj heq).2⟩
    | cons word' words' =>
      rw [List.flatMap_cons, hcomma] at heq
      exact absurd (List.cons.inj heq).1.symm hdiffer
  | cons word words ih =>
    obtain ⟨hword, hwords⟩ := List.forall_mem_cons.mp h
    cases words' with
    | nil =>
      rw [List.flatMap_cons, hcomma] at heq
      exact absurd (List.cons.inj heq).1 hdiffer
    | cons word' words' =>
      obtain ⟨hword', hwords'⟩ := List.forall_mem_cons.mp h'
      rw [List.flatMap_cons, List.flatMap_cons] at heq
      simp only [List.append_assoc, List.append_cancel_left_eq] at heq
      obtain ⟨rfl, hnext⟩ := quoted_tells hword hword' trivial trivial heq
      obtain ⟨rfl, hrest⟩ := ih hwords hwords' hnext
      exact ⟨rfl, hrest⟩

/-- A snapshot consists of the kinds and the source. -/
theorem snapshot_unique {t u : Tree} (h : t.snapshot?.isSome) (heq : t.snapshot? = u.snapshot?) :
    t.kinds = u.kinds ∧ t.source? = u.source? := by
  obtain ⟨snapshot, hsnapshot⟩ := Option.isSome_iff_exists.mp h
  obtain ⟨source, hsource, ht⟩ := Option.map_eq_some_iff.mp hsnapshot
  obtain ⟨source', hsource', hu⟩ := Option.map_eq_some_iff.mp (heq.symm.trans hsnapshot)
  obtain ⟨word, words, hkinds, -⟩ := kinds_front t
  obtain ⟨word', words', hkinds', -⟩ := kinds_front u
  have hquotes := quote_notMem_kinds t
  have hquotes' := quote_notMem_kinds u
  rw [hkinds] at ht hquotes
  rw [hkinds'] at hu hquotes'
  obtain ⟨hword, hwords⟩ := List.forall_mem_cons.mp hquotes
  obtain ⟨hword', hwords'⟩ := List.forall_mem_cons.mp hquotes'
  have hsame := ht.trans hu.symm
  have hbracket : Text.ofString "],Source:\"" = Text.ascii ']' :: Text.ofString ",Source:\"" := by
    decide
  have hmap : ∀ words : List Text,
      (words.map fun k => Text.ascii '"' :: (k ++ [Text.ascii '"'])) = words.map quoted :=
    fun _ => rfl
  simp only [hmap, List.map_cons, Text.join, Text.intercalate_cons, List.flatMap_map, hbracket,
    List.append_assoc, List.append_cancel_left_eq, List.cons_append] at hsame
  obtain ⟨rfl, hnext⟩ := quoted_tells hword hword' trivial trivial hsame
  obtain ⟨rfl, hrest⟩ := quotedAll_unique hwords hwords' hnext
  have hsources := List.append_cancel_right (List.append_cancel_left hrest)
  exact ⟨by rw [hkinds, hkinds'], by rw [hsource, hsource', hsources]⟩

end ScriptSimplifier
