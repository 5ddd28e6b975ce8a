import ScriptSimplifier.Proofs.Syntax.WellFormed
import ScriptSimplifier.SExpression.Reader
import ScriptSimplifier.SExpression.Writer

/-!
# Trees that are read

A tree is *writable* if each node has a child for each field of its kind, no field holds what it may
not, and operators and targets of jumps are spelled as tokens are.  Every tree that the reader gives
is writable (`read_writable`).  Required children may be missing, because the text may say so.  The
invariant of the reader is that what is open is writable as far as it was read, and that every open
list stands in the field that the node below it reads next.
-/

namespace ScriptSimplifier

/-! ## Writable trees -/

/-- Operators are signs or words, and targets of jumps are words. -/
def Label.isWritable : Label → Bool
  | .binaryExpression operator | .unaryExpression operator =>
    SExpression.operators.contains operator || SExpression.isPlainName operator
  | .breakStatement target | .continueStatement target =>
    target.isEmpty || SExpression.isPlainName target
  | _ => true

namespace Tree

/-- All conditions on a node that can be written. -/
def nodeWritable (label : Label) (children : List Tree) : Bool :=
  label.isWritable && nodeShaped label children && nodeFits .loose label children

/-- A node that can be written so that reading gives it back. -/
def isWritable (t : Tree) : Bool := t.kind?.isSome && t.allNodes nodeWritable

end Tree

theorem nodeWritable_iff {label : Label} {children : List Tree} :
    Tree.nodeWritable label children = true ↔ label.isWritable = true ∧
      children.length = label.fields.length ∧ Tree.nodeFits .loose label children = true := by
  simp [Tree.nodeWritable, Tree.nodeShaped, and_assoc]

/-- A label that can be written has an operator if it needs one. -/
theorem Label.hasOperator_of_isWritable {label : Label} (h : label.isWritable = true) :
    label.hasOperator = true := by
  cases label with
  | unaryExpression operator =>
    cases operator with
    | nil => exact absurd h (by decide)
    | cons b rest => rfl
  | _ => rfl

theorem Tree.isWellFormed_of_isWritable {t : Tree} (h : t.isWritable = true) :
    t.isWellFormed .loose = true := by
  rw [Tree.isWritable, Bool.and_eq_true] at h
  rw [Tree.isWellFormed, Bool.and_eq_true]
  refine ⟨h.1, t.allNodes_mono (fun label children hnode => ?_) h.2⟩
  obtain ⟨hlabel, hlength, hfits⟩ := nodeWritable_iff.mp hnode
  exact nodeWellFormed_iff.mpr
    ⟨fun _ => Label.hasOperator_of_isWritable hlabel, hlength, hfits⟩

/-- Writable is well-formed with writable labels. -/
theorem Tree.isWritable_iff {t : Tree} : t.isWritable = true ↔
    t.isWellFormed .loose = true ∧ (t.allNodes fun label _ => label.isWritable) = true := by
  refine ⟨fun h => ⟨t.isWellFormed_of_isWritable h, ?_⟩, fun ⟨hformed, hlabels⟩ => ?_⟩
  · rw [Tree.isWritable, Bool.and_eq_true] at h
    exact t.allNodes_mono (fun _ _ hnode => (nodeWritable_iff.mp hnode).1) h.2
  · rw [Tree.isWellFormed, Bool.and_eq_true] at hformed
    rw [Tree.isWritable, Bool.and_eq_true]
    refine ⟨hformed.1, t.allNodes_mono (fun label children hnode => ?_)
      (t.allNodes_and.mpr ⟨hlabels, hformed.2⟩)⟩
    obtain ⟨hlabel, hnode⟩ := Bool.and_eq_true_iff.mp hnode
    obtain ⟨_, hlength, hfits⟩ := nodeWellFormed_iff.mp hnode
    exact nodeWritable_iff.mpr ⟨hlabel, hlength, hfits⟩

namespace SExpression

/-! ## Tokens -/

/-- Signs are operators, and words are plain names. -/
structure Token.Spelled (t : Token) : Prop where
  sign : t.cls = .operator → t.lexeme ∈ operators
  word : t.cls = .identifier → isPlainName t.lexeme = true

theorem bracketClass?_ne {b : UInt8} {cls : TokenClass} (h : bracketClass? b = some cls) :
    cls ≠ .operator ∧ cls ≠ .identifier := by
  rw [bracketClass?] at h
  split at h
  · obtain rfl := Option.some.inj h
    simp
  · split at h
    · obtain rfl := Option.some.inj h
      simp
    · split at h
      · obtain rfl := Option.some.inj h
        simp
      · split at h
        · obtain rfl := Option.some.inj h
          simp
        · cases h

theorem front?_spelled {b : UInt8} {rest : Text} {cls : TokenClass} {length : Nat}
    (h : front? b rest = some (some cls, length)) (column : Nat) :
    (Token.mk cls ((b :: rest).take length) column).Spelled := by
  rw [front?] at h
  split at h
  · simp at h
  · split at h
    · simp at h
    · split at h
      · obtain ⟨n, _, heq⟩ := Option.map_eq_some_iff.mp h
        obtain ⟨hstring, _⟩ := Prod.mk.inj heq
        obtain rfl := Option.some.inj hstring
        exact ⟨by simp, by simp⟩
      · split at h
        · rename_i hstart
          obtain ⟨hword, rfl⟩ := Prod.mk.inj (Option.some.inj h)
          obtain rfl := Option.some.inj hword
          refine ⟨by simp, fun _ => ?_⟩
          -- a word goes as far as the parts of a name do
          have hparts : rest.take (rest.takeWhile Text.isIdentifierPart).length =
              rest.takeWhile Text.isIdentifierPart :=
            (List.prefix_iff_eq_take.mp (List.takeWhile_prefix _)).symm
          have hall : (rest.takeWhile Text.isIdentifierPart).all Text.isIdentifierPart = true :=
            List.all_takeWhile
          simp [isPlainName, hparts, hall, hstart, Text.isIdentifierPart]
        · split at h
          · rename_i hbracket
            obtain ⟨hcls, _⟩ := Prod.mk.inj (Option.some.inj h)
            obtain rfl := Option.some.inj hcls
            have hclass := bracketClass?_ne hbracket
            exact ⟨fun hsign => absurd hsign hclass.1, fun hword => absurd hword hclass.2⟩
          · obtain ⟨hnumber, _⟩ := Prod.mk.inj (Option.some.inj h)
            obtain rfl := Option.some.inj hnumber
            exact ⟨by simp, by simp⟩
          · obtain ⟨op, hop, heq⟩ := Option.map_eq_some_iff.mp h
            obtain ⟨hsign, rfl⟩ := Prod.mk.inj heq
            obtain rfl := Option.some.inj hsign
            refine ⟨fun _ => ?_, by simp⟩
            -- the sign is found in the list of operators
            have hfront := List.find?_some hop
            have htake := List.prefix_iff_eq_take.mp (List.isPrefixOf_iff_prefix.mp hfront)
            rw [← htake]
            exact List.mem_of_find?_eq_some hop

theorem scanFrom_spelled {column skip : Nat} {t : Text} {tokens : List Token}
    (h : scanFrom column skip t = .ok tokens) : ∀ token ∈ tokens, token.Spelled := by
  induction t generalizing column skip tokens with
  | nil =>
    obtain rfl : [] = tokens := by simpa [scanFrom] using h
    simp
  | cons b rest ih =>
    cases skip with
    | succ skip =>
      rw [scanFrom] at h
      exact ih h
    | zero =>
      rw [scanFrom] at h
      split at h
      · simp at h
      · rename_i cls? length hfront
        cases hrest : scanFrom (nextColumn column b) (length - 1) rest with
        | error column' => simp [hrest, bind, Except.bind] at h
        | ok tokens' =>
          simp only [hrest, bind, Except.bind] at h
          cases cls? with
          | none =>
            obtain rfl : tokens' = tokens := by simpa [pure, Except.pure] using h
            exact ih hrest
          | some cls =>
            obtain rfl : _ :: tokens' = tokens := by simpa [pure, Except.pure] using h
            exact List.forall_mem_cons.mpr ⟨front?_spelled hfront _, ih hrest⟩

/-! ## Open nodes and lists -/

/-- What was read so far is writable. -/
def Frame.Sound : Frame → Prop
  | .node _ label done todo => label.isWritable = true ∧
      ∃ before, label.fields = before ++ todo ∧ before.length = done.length ∧
        (∀ p ∈ before.zip done.reverse, p.1.admits .loose p.2 = true) ∧
        ∀ t ∈ done, t.allNodes Tree.nodeWritable = true
  | .list field done => field.isList = true ∧
      ∀ t ∈ done, t.isIn field.accepts = true ∧ t.allNodes Tree.nodeWritable = true

mutual

/-- Frames of which the innermost waits for a node. -/
inductive Waits : List Frame → Prop
  | nil : Waits []
  | node {column : Nat} {label : Label} {done : List Tree} {f : Field} {todo : List Field}
      {frames : List Frame} : Open (.node column label done (f :: todo)) frames →
      f.isList = false → Waits (.node column label done (f :: todo) :: frames)
  | list {f : Field} {done : List Tree} {frames : List Frame} : Open (.list f done) frames →
      Waits (.list f done :: frames)

/-- A frame that was opened over others: a list over the node in whose next field it stands. -/
inductive Open : Frame → List Frame → Prop
  | node {column : Nat} {label : Label} {done : List Tree} {todo : List Field}
      {frames : List Frame} : (Frame.node column label done todo).Sound → Waits frames →
      Open (.node column label done todo) frames
  | list {column : Nat} {label : Label} {done items : List Tree} {f : Field} {todo : List Field}
      {frames : List Frame} : (Frame.list f items).Sound →
      Open (.node column label done (f :: todo)) frames →
      Open (.list f items) (.node column label done (f :: todo) :: frames)

end

/-- What the reader's state promises. -/
def State.Sound : State → Prop
  | .start => True
  | .kind _ frames => Waits frames
  | .attribute _ _ frames => Waits frames
  | .magnitude _ frames => Waits frames
  | .inside frame frames => Open frame frames
  | .finished tree => tree.isWritable = true

/-- The state that a step leads to, if any, keeps its promise. -/
def Safe (result : Except SyntaxError State) : Prop := ∀ state, result = .ok state → state.Sound

theorem safe_ok {state : State} (h : state.Sound) : Safe (.ok state) := by
  intro state' heq
  obtain rfl : state = state' := by simpa using heq
  exact h

theorem safe_fail (frames : List Frame) (cause : Cause) : Safe (fail frames cause) := by
  intro state heq
  simp [fail] at heq

/-- One more child for the next field. -/
theorem Frame.Sound.add {column : Nat} {label : Label} {done : List Tree} {f : Field}
    {todo : List Field} (h : (Frame.node column label done (f :: todo)).Sound) {child : Tree}
    (hadmits : f.admits .loose child = true)
    (hchild : child.allNodes Tree.nodeWritable = true) :
    ((Frame.node column label done (f :: todo)).add child).Sound := by
  obtain ⟨hlabel, before, hfields, hlength, hbefore, hdone⟩ := h
  refine ⟨hlabel, before ++ [f], by simp [hfields], by simp [hlength], ?_, ?_⟩
  · rw [List.reverse_cons, List.zip_append (by simpa using hlength)]
    intro p hp
    rcases List.mem_append.mp hp with hp | hp
    · exact hbefore p hp
    · obtain rfl : p = (f, child) := by simpa using hp
      exact hadmits
  · exact List.forall_mem_cons.mpr ⟨hchild, hdone⟩

/-- A node with all its children. -/
theorem supply_safe {column : Nat} {label : Label} {children : List Tree} {frames : List Frame}
    (hframes : Waits frames)
    (hnode : (Tree.node label children).allNodes Tree.nodeWritable = true) :
    Safe (supply column label children frames) := by
  cases hframes with
  | nil =>
    refine safe_ok ?_
    simp [State.Sound, Tree.isWritable, Tree.kind?, hnode]
  | node hopen hsingle =>
    rw [supply, Frame.accepts?]
    dsimp only
    split
    · rename_i haccepts
      cases hopen with
      | node hsound hwaits =>
        refine safe_ok (.node (hsound.add ?_ hnode) hwaits)
        simp [Field.admits, hsingle, haccepts]
    · exact safe_fail _ _
  | list hopen =>
    rw [supply, Frame.accepts?]
    dsimp only
    split
    · rename_i haccepts
      cases hopen with
      | list hsound howner =>
        refine safe_ok (.list ⟨hsound.1, List.forall_mem_cons.mpr ⟨⟨?_, hnode⟩, hsound.2⟩⟩ howner)
        simp [Tree.isIn, Tree.kind?, haccepts]
    · exact safe_fail _ _

theorem openNode_sound {column : Nat} {label : Label} {frames : List Frame}
    (hframes : Waits frames) (hlabel : label.isWritable = true) :
    (openNode column label frames).Sound :=
  .node ⟨hlabel, [], by simp⟩ hframes

/-- A node without fields. -/
theorem leaf_writable {label : Label} (hlabel : label.isWritable = true)
    (hfields : label.fields = []) :
    (Tree.node label []).allNodes Tree.nodeWritable = true := by
  rw [allNodes_node]
  exact ⟨by simp [Tree.nodeWritable, Tree.nodeShaped, Tree.nodeFits, hlabel, hfields],
    by simp⟩

theorem wordLabel_leaf (category : Option Category) (t : Token) :
    (wordLabel category t).isWritable = true ∧ (wordLabel category t).fields = [] := by
  rw [wordLabel]
  split
  · exact ⟨rfl, rfl⟩
  · split
    · exact ⟨rfl, rfl⟩
    · split
      · exact ⟨rfl, rfl⟩
      · split <;> exact ⟨rfl, rfl⟩

theorem beginChild_safe {t : Token} {frame : Frame} {frames : List Frame}
    (h : Waits (frame :: frames)) : Safe (beginChild t frame frames) := by
  rw [beginChild]
  split
  · exact safe_ok h
  · exact supply_safe h (leaf_writable rfl rfl)
  · split
    · exact supply_safe h (leaf_writable rfl rfl)
    · exact safe_fail _ _
  · obtain ⟨hlabel, hfields⟩ := wordLabel_leaf frame.accepts? t
    exact supply_safe h (leaf_writable hlabel hfields)
  · exact safe_fail _ _

/-- Fields that are left out are filled with what they may hold. -/
theorem defaults_admits {kind : Kind} {fields : List Field} {children : List Tree}
    (h : defaults kind fields = .ok children) :
    children.length = fields.length ∧ (∀ p ∈ fields.zip children, p.1.admits .loose p.2 = true) ∧
      ∀ t ∈ children, t.allNodes Tree.nodeWritable = true := by
  induction fields generalizing children with
  | nil =>
    obtain rfl : [] = children := by simpa [defaults] using h
    simp
  | cons f fields ih =>
    rw [defaults] at h
    cases hrest : defaults kind fields with
    | error cause =>
      rw [hrest] at h
      split at h
      · simp [Except.map] at h
      · split at h <;> simp [Except.map] at h
    | ok rest =>
      obtain ⟨hlength, hadmits, hnodes⟩ := ih hrest
      rw [hrest] at h
      split at h
      · rename_i hlist
        obtain rfl : .list [] :: rest = children := by simpa [Except.map] using h
        refine ⟨by simp [hlength], ?_, List.forall_mem_cons.mpr ⟨?_, hnodes⟩⟩
        · exact List.forall_mem_cons.mpr ⟨by simp [Field.admits, hlist], hadmits⟩
        · rw [allNodes_list]
          simp
      · rename_i hsingle
        split at h
        · obtain rfl : .missing :: rest = children := by simpa [Except.map] using h
          refine ⟨by simp [hlength], ?_, List.forall_mem_cons.mpr ⟨rfl, hnodes⟩⟩
          exact List.forall_mem_cons.mpr
            ⟨by simpa [Field.admits, Strictness.loose] using hsingle, hadmits⟩
        · simp at h

/-- A node that is closed. -/
theorem Frame.Sound.close {column : Nat} {label : Label} {done rest : List Tree}
    {todo : List Field} (h : (Frame.node column label done todo).Sound)
    (hrest : defaults label.kind todo = .ok rest) :
    (Tree.node label (done.reverse ++ rest)).allNodes Tree.nodeWritable = true := by
  obtain ⟨hlabel, before, hfields, hlength, hbefore, hdone⟩ := h
  obtain ⟨hlength', hadmits, hnodes⟩ := defaults_admits hrest
  rw [allNodes_node]
  constructor
  · have hzip : label.fields.zip (done.reverse ++ rest) =
        before.zip done.reverse ++ todo.zip rest := by
      rw [hfields, List.zip_append (by simpa using hlength)]
    have hshape : (done.reverse ++ rest).length = label.fields.length := by
      simp [hfields, hlength, hlength']
    refine nodeWritable_iff.mpr ⟨hlabel, hshape, ?_⟩
    rw [Tree.nodeFits, hzip, List.all_eq_true]
    intro p hp
    rcases List.mem_append.mp hp with hp | hp
    · exact hbefore p hp
    · exact hadmits p hp
  · intro t ht
    rcases List.mem_append.mp ht with ht | ht
    · exact hdone t (List.mem_reverse.mp ht)
    · exact hnodes t ht

/-! ## Steps -/

theorem stepInside_safe {t : Token} {frame : Frame} {frames : List Frame}
    (h : Open frame frames) : Safe (stepInside t frame frames) := by
  rw [stepInside.eq_def]
  cases h with
  | @node column label done todo _ hsound hwaits =>
    dsimp only
    split
    · split
      · rename_i rest hrest
        exact supply_safe hwaits (hsound.close hrest)
      · exact safe_fail _ _
    · cases todo with
      | nil => exact safe_fail _ _
      | cons f todo =>
        dsimp only
        split
        · rename_i hlist
          split
          · exact safe_ok (.list ⟨hlist, by simp⟩ (.node hsound hwaits))
          · exact safe_fail _ _
        · rename_i hsingle
          have hsingle' : f.isList = false := by simpa using hsingle
          split
          · -- an empty place may be left in any field for one child
            refine safe_ok (.node (hsound.add ?_ rfl) hwaits)
            simp [Field.admits, Strictness.loose, hsingle']
          · exact beginChild_safe (.node (.node hsound hwaits) hsingle')
  | @list column label done items f todo outer hsound howner =>
    dsimp only
    split
    · cases howner with
      | node hnode hwaits =>
        refine safe_ok (.node (hnode.add ?_ ?_) hwaits)
        · -- the items were held to the field's category one by one
          simp only [Field.admits, hsound.1, Bool.true_and, List.all_eq_true]
          intro x hx
          exact (hsound.2 x (List.mem_reverse.mp hx)).1
        · rw [allNodes_list]
          intro x hx
          exact (hsound.2 x (List.mem_reverse.mp hx)).2
    · split
      · exact safe_fail _ _
      · exact beginChild_safe (.list (.list hsound howner))

theorem openWith_safe {column : Nat} {frames : List Frame} (hframes : Waits frames)
    {label : Except Cause Label} (h : ∀ l, label = .ok l → l.isWritable = true) :
    Safe (openWith column frames label) := by
  cases label with
  | ok l => exact safe_ok (openNode_sound hframes (h l rfl))
  | error cause => exact safe_fail _ _

/-- A label made out of something that was read. -/
theorem isWritable_map {α : Type} {value : Except Cause α} {make : α → Label} {l : Label}
    (h : value.map make = .ok l) (hmake : ∀ a, value = .ok a → (make a).isWritable = true) :
    l.isWritable = true := by
  cases value with
  | error cause => simp [Except.map] at h
  | ok a =>
    obtain rfl : make a = l := by simpa [Except.map] using h
    exact hmake a rfl

/-- An operator that was read. -/
theorem operatorOf_writable {t : Token} (ht : t.Spelled) {operator : Text}
    (h : operatorOf t = .ok operator) :
    (operators.contains operator || isPlainName operator) = true := by
  rw [operatorOf] at h
  split at h
  · rename_i hcls
    obtain rfl : t.lexeme = operator := by simpa using h
    rcases hcls with hsign | hword
    · simp [ht.sign hsign]
    · simp [ht.word hword]
  · simp at h

theorem openJump_safe {column : Nat} {label : Text → Label} {t : Token} (ht : t.Spelled)
    {frames : List Frame} (hframes : Waits frames)
    (hlabel : ∀ target, target = [] ∨ isPlainName target = true →
      (label target).isWritable = true) :
    Safe (openJump column label t frames) := by
  rw [openJump]
  split
  · rename_i hword
    exact safe_ok (openNode_sound hframes (hlabel _ (.inr (ht.word hword))))
  · exact stepInside_safe (.node ⟨hlabel [] (.inl rfl), [], by simp⟩ hframes)

theorem stepAttribute_safe {t : Token} (ht : t.Spelled) {column : Nat} {kind : Kind}
    {frames : List Frame} (h : Waits frames) : Safe (stepAttribute t column kind frames) := by
  have hplain : ∀ {α : Type} {value : Except Cause α} {make : α → Label},
      (∀ a, (make a).isWritable = true) → Safe (openWith column frames (value.map make)) :=
    fun hmake => openWith_safe h fun l hl => isWritable_map hl fun a _ => hmake a
  -- a kind without attributes goes on with its fields
  have hblank : (Label.blank kind).isWritable = true →
      Safe (stepInside t (.node column (.blank kind) [] kind.fields) frames) := by
    intro hlabel
    refine stepInside_safe (.node ⟨hlabel, [], ?_, by simp⟩ h)
    cases kind <;> rfl
  rw [stepAttribute.eq_def]
  cases kind
  case identifierExpression => exact hplain fun _ => rfl
  case bindingIdentifier => exact hplain fun _ => rfl
  case functionDeclaration => exact hplain fun _ => rfl
  case staticMemberExpression => exact hplain fun _ => rfl
  case breakStatement =>
    exact openJump_safe ht h fun target htarget => by simpa [Label.isWritable] using htarget
  case continueStatement =>
    exact openJump_safe ht h fun target htarget => by simpa [Label.isWritable] using htarget
  case binaryExpression =>
    exact openWith_safe h fun l hl => isWritable_map hl fun operator => operatorOf_writable ht
  case unaryExpression =>
    exact openWith_safe h fun l hl => isWritable_map hl fun operator => operatorOf_writable ht
  case numericLiteral =>
    dsimp only
    split
    · exact safe_ok h
    · split
      · exact openWith_safe h fun l hl => by cases hl; rfl
      · split
        · exact openWith_safe h fun l hl => by cases hl; rfl
        · split
          · exact openWith_safe h fun l hl => by cases hl; rfl
          · exact safe_fail _ _
  case stringLiteral =>
    dsimp only
    split
    · exact hplain fun _ => rfl
    · exact safe_fail _ _
  case booleanLiteral =>
    dsimp only
    split
    · exact openWith_safe h fun l hl => by cases hl; rfl
    · split
      · exact openWith_safe h fun l hl => by cases hl; rfl
      · exact safe_fail _ _
  all_goals exact hblank rfl

/-- Every step keeps the promise of the state. -/
theorem step_safe {t : Token} (ht : t.Spelled) {state : State} (h : state.Sound) :
    Safe (step t state) := by
  rcases state with _ | ⟨column, frames⟩ | ⟨column, kind, frames⟩ | ⟨column, frames⟩ |
    ⟨frame, frames⟩ | tree
  · rw [step]
    split
    · exact safe_ok .nil
    · exact safe_fail _ _
  · rw [step]
    split
    · split
      · exact safe_ok h
      · exact safe_fail _ _
    · exact safe_fail _ _
  · exact stepAttribute_safe ht h
  · rw [step]
    split
    · exact safe_ok (openNode_sound h rfl)
    · exact safe_fail _ _
  · exact stepInside_safe h
  · exact safe_fail _ _

theorem readTokens_writable {state : State} (h : state.Sound) {tokens : List Token}
    (htokens : ∀ token ∈ tokens, token.Spelled) {t : Tree}
    (hread : readTokens state tokens = .ok t) : t.isWritable = true := by
  induction tokens generalizing state with
  | nil =>
    rw [readTokens.eq_def] at hread
    split at hread
    · obtain rfl := Except.ok.inj hread
      exact h
    · split at hread
      · simp [fail] at hread
      · simp at hread
    · simp_all
  | cons token rest ih =>
    obtain ⟨htoken, hrest⟩ := List.forall_mem_cons.mp htokens
    rw [readTokens] at hread
    cases hstep : step token state with
    | error e => simp [hstep] at hread
    | ok next =>
      rw [hstep] at hread
      exact ih (step_safe htoken h next hstep) hrest hread

end SExpression

/-- Every tree that was read is writable. -/
theorem read_writable {text : Text} {t : Tree} (h : Tree.read text = .ok t) :
    t.isWritable = true := by
  rw [Tree.read] at h
  split at h
  · rename_i tokens htokens
    exact SExpression.readTokens_writable (show SExpression.State.Sound .start from trivial)
      (SExpression.scanFrom_spelled htokens) h
  · simp at h

/-- Trees that were read are well-formed, apart from required children that may be missing. -/
theorem read_wellFormed {text : Text} {t : Tree} (h : Tree.read text = .ok t) :
    t.isWellFormed .loose = true :=
  t.isWellFormed_of_isWritable (read_writable h)

end ScriptSimplifier
