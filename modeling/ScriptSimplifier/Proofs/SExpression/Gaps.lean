import ScriptSimplifier.Proofs.SExpression.Reading

/-!
# What a text leaves empty

For every text, reading ends with an error or with a tree, and the tree obeys the schema except for
required children that the text leaves out with the word `nil` (`read_sound`).  The reader's
invariant is that of `State.Sound`; beside it, every step that meets `nil` where a required child
must stand leaves exactly that field empty, and no other step leaves one (`step_empties`).
-/

namespace ScriptSimplifier

/-! ## Gaps of a tree -/

/-- A required field without child: the path to it and the field. -/
structure Gap where
  path : Text
  field : Field

/-- Whether a field must hold a child and holds none. -/
def Field.lacks (f : Field) (child : Tree) : Bool :=
  !f.isList && !f.optional && child.isMissing

mutual

/-- The gaps at and below an element that stands at a path. -/
def Tree.gapsAt (path : Text) : Tree → List Gap
  | .missing => []
  | .node label children => gapsIn path label.fields children
  | .list items => gapsAmong path 0 items

/-- The gaps in the fields of a node. -/
def gapsIn (path : Text) : List Field → List Tree → List Gap
  | f :: fields, child :: children =>
    let place := path ++ Text.ascii '.' :: Text.ofString f.name
    (if f.lacks child then [⟨place, f⟩] else []) ++ child.gapsAt place ++
      gapsIn path fields children
  | _, _ => []

/-- The gaps in the items of a list, the first of which has the given index. -/
def gapsAmong (path : Text) (index : Nat) : List Tree → List Gap
  | [] => []
  | item :: rest =>
    item.gapsAt (path ++ Text.ascii '[' :: Text.ofNat index ++ [Text.ascii ']']) ++
      gapsAmong path (index + 1) rest

end

/-- The gaps of a tree in the order of the text. -/
def Tree.gaps (t : Tree) : List Gap :=
  match t with
  | .node label _ => t.gapsAt label.kind.name
  | _ => []

/-- What a gap violates. -/
def Gap.violation (g : Gap) : Violation := ⟨g.path, .required⟩

mutual

theorem fieldViolations_eq_gaps (path : Text) : ∀ (fields : List Field) (children : List Tree),
    ((fields.zip children).all fun (f, child) => f.admits .loose child) = true →
    allNodesOf (Tree.nodeFits .loose) children = true →
    fieldViolations path fields children = (gapsIn path fields children).map Gap.violation
  | [], _, _, _ => by simp [fieldViolations, gapsIn]
  | _ :: _, [], _, _ => by simp [fieldViolations, gapsIn]
  | f :: fields, child :: children, hadmits, hfits => by
    rw [List.zip_cons_cons, List.all_cons, Bool.and_eq_true] at hadmits
    rw [allNodesOf, Bool.and_eq_true] at hfits
    have hrest := fieldViolations_eq_gaps path fields children hadmits.2 hfits.2
    have hhere : f.admits .loose child = true := hadmits.1
    cases child with
    | missing =>
      have hsingle : f.isList = false := by simpa [Field.admits, Strictness.loose] using hhere
      cases hopt : f.optional <;>
        simp [fieldViolations, gapsIn, Tree.gapsAt, Field.lacks, Tree.isMissing, hsingle, hopt,
          hrest, Gap.violation]
    | list items =>
      rw [Field.admits, Bool.and_eq_true] at hhere
      have hitems := itemViolations_eq_gaps (path ++ Text.ascii '.' :: Text.ofString f.name)
        f.accepts 0 items hhere.2 hfits.1
      simp [fieldViolations, gapsIn, Tree.gapsAt, Field.lacks, hhere.1, hitems, hrest]
    | node label below =>
      rw [Field.admits, Bool.and_eq_true, Bool.not_eq_true'] at hhere
      rw [Tree.allNodes, Bool.and_eq_true] at hfits
      have hbelow := fieldViolations_eq_gaps (path ++ Text.ascii '.' :: Text.ofString f.name)
        label.fields below hfits.1.1 hfits.1.2
      simp [fieldViolations, gapsIn, Tree.gapsAt, Field.lacks, Tree.isMissing, hhere.1, hhere.2,
        hbelow, hrest]

theorem itemViolations_eq_gaps (path : Text) (expected : Category) :
    ∀ (index : Nat) (items : List Tree), items.all (·.isIn expected) = true →
    allNodesOf (Tree.nodeFits .loose) items = true →
    itemViolations path expected index items =
      (gapsAmong path index items).map Gap.violation
  | _, [], _, _ => by simp [itemViolations, gapsAmong]
  | _, .missing :: _, hin, _ => by simp [Tree.isIn, Tree.kind?] at hin
  | _, .list _ :: _, hin, _ => by simp [Tree.isIn, Tree.kind?] at hin
  | index, .node label below :: rest, hin, hfits => by
    rw [List.all_cons, Bool.and_eq_true] at hin
    rw [allNodesOf, Tree.allNodes, Bool.and_eq_true, Bool.and_eq_true] at hfits
    have haccepts : expected.accepts label.kind = true := by
      simpa [Tree.isIn, Tree.kind?] using hin.1
    have hrest := itemViolations_eq_gaps path expected (index + 1) rest hin.2 hfits.2
    have hbelow := fieldViolations_eq_gaps
      (path ++ Text.ascii '[' :: Text.ofNat index ++ [Text.ascii ']'])
      label.fields below hfits.1.1 hfits.1.2
    simp only [itemViolations, gapsAmong, Tree.gapsAt, haccepts, if_true, hbelow, hrest,
      List.map_append]

end

/-- A tree that is well-formed but for missing children violates the schema in its gaps only. -/
theorem violations_eq_gaps {t : Tree} (h : t.isWellFormed .loose = true) :
    t.violations = t.gaps.map Gap.violation := by
  rw [Tree.isWellFormed, Bool.and_eq_true] at h
  obtain ⟨hkind, hnodes⟩ := h
  cases t with
  | missing => simp [Tree.kind?] at hkind
  | list items => simp [Tree.kind?] at hkind
  | node label children =>
    have hfits := Tree.allNodes_mono
      (fun label children hnode => (nodeWellFormed_iff.mp hnode).2.2) _ hnodes
    rw [Tree.allNodes, Bool.and_eq_true] at hfits
    exact fieldViolations_eq_gaps label.kind.name label.fields children hfits.1 hfits.2

/-! ## Empty fields without their paths -/

/-- The required fields without child at and below an element. -/
def Tree.unfilled (t : Tree) : List Field := (t.gapsAt []).map Gap.field

/-- The required fields without child in a field and below it. -/
def Field.unfilled (f : Field) (child : Tree) : List Field :=
  (if f.lacks child then [f] else []) ++ child.unfilled

mutual

/-- Which fields are empty does not depend on where the element stands. -/
theorem fields_gapsAt (path path' : Text) : ∀ t : Tree,
    (t.gapsAt path).map Gap.field = (t.gapsAt path').map Gap.field
  | .missing => rfl
  | .node label children => fields_gapsIn path path' label.fields children
  | .list items => fields_gapsAmong path path' 0 0 items

theorem fields_gapsIn (path path' : Text) : ∀ (fields : List Field) (children : List Tree),
    (gapsIn path fields children).map Gap.field = (gapsIn path' fields children).map Gap.field
  | [], _ => by simp [gapsIn]
  | _ :: _, [] => by simp [gapsIn]
  | f :: fields, child :: children => by
    have hhere := fields_gapsAt (path ++ Text.ascii '.' :: Text.ofString f.name)
      (path' ++ Text.ascii '.' :: Text.ofString f.name) child
    have hrest := fields_gapsIn path path' fields children
    cases hlacks : f.lacks child <;> simp [gapsIn, hlacks, hhere, hrest]

theorem fields_gapsAmong (path path' : Text) : ∀ (index index' : Nat) (items : List Tree),
    (gapsAmong path index items).map Gap.field = (gapsAmong path' index' items).map Gap.field
  | _, _, [] => by simp [gapsAmong]
  | index, index', item :: rest => by
    rw [gapsAmong, gapsAmong, List.map_append, List.map_append,
      fields_gapsAt _ (path' ++ Text.ascii '[' :: Text.ofNat index' ++ [Text.ascii ']']) item,
      fields_gapsAmong path path' (index + 1) (index' + 1) rest]

end

theorem unfilled_gapsIn (path : Text) (fields : List Field) (children : List Tree) :
    (gapsIn path fields children).map Gap.field =
      (fields.zip children).flatMap fun p => p.1.unfilled p.2 := by
  induction fields generalizing children with
  | nil => simp [gapsIn]
  | cons f fields ih =>
    cases children with
    | nil => simp [gapsIn]
    | cons child children =>
      have hhere := fields_gapsAt (path ++ Text.ascii '.' :: Text.ofString f.name) [] child
      cases hlacks : f.lacks child <;>
        simp [gapsIn, Field.unfilled, Tree.unfilled, hlacks, hhere, ih]

theorem unfilled_node (label : Label) (children : List Tree) :
    (Tree.node label children).unfilled =
      (label.fields.zip children).flatMap fun p => p.1.unfilled p.2 :=
  unfilled_gapsIn [] label.fields children

theorem unfilled_list (items : List Tree) :
    (Tree.list items).unfilled = items.flatMap Tree.unfilled := by
  rw [Tree.unfilled, Tree.gapsAt]
  generalize 0 = index
  induction items generalizing index with
  | nil => rfl
  | cons item rest ih =>
    rw [gapsAmong, List.map_append, ih, List.flatMap_cons, Tree.unfilled, fields_gapsAt _ []]

theorem fields_gaps (t : Tree) (h : t.kind?.isSome = true) : t.gaps.map Gap.field = t.unfilled := by
  cases t with
  | node label children => exact fields_gapsAt _ _ _
  | _ => simp [Tree.kind?] at h

/-- A field that holds a child is empty where the child is. -/
theorem unfilled_held {f : Field} {child : Tree} (h : f.lacks child = false) :
    f.unfilled child = child.unfilled := by
  simp [Field.unfilled, h]

namespace SExpression

/-! ## Empty fields of what is open -/

/-- The required fields without child among the children of a frame. -/
def Frame.unfilled : Frame → List Field
  | .node _ label done _ =>
    (label.fields.zip done.reverse).flatMap fun p => p.1.unfilled p.2
  | .list _ done => done.reverse.flatMap Tree.unfilled

/-- The required fields without child in frames, the outermost frame first. -/
def unfilledIn (frames : List Frame) : List Field := frames.reverse.flatMap Frame.unfilled

/-- The required fields that were left empty on the way to a state. -/
def State.unfilled : State → List Field
  | .start => []
  | .kind _ frames => unfilledIn frames
  | .attribute _ _ frames => unfilledIn frames
  | .magnitude _ frames => unfilledIn frames
  | .inside frame frames => unfilledIn (frame :: frames)
  | .finished tree => tree.unfilled

/-- The field that a state reads next, unless the state reads something else first. -/
def State.field? : State → Option Field
  | .inside (.node _ _ _ todo) _ => todo.head?
  | .attribute _ .functionDeclaration _ | .attribute _ .binaryExpression _
  | .attribute _ .unaryExpression _ | .attribute _ .staticMemberExpression _ => none
  | .attribute _ k _ => k.fields.head?
  | _ => none

/-- The field of a single child that a state leaves empty at a token. -/
def State.leaves (t : Token) (state : State) : List Field :=
  state.field?.toList.filter fun f => !f.isList && t.isWord "nil"

/-- The fields that are left empty by the word `nil` while tokens are read. -/
def omitted : State → List Token → List Field
  | _, [] => []
  | state, t :: rest =>
    state.leaves t ++
      match step t state with
      | .ok next => omitted next rest
      | .error _ => []

/-- The state that tokens lead to. -/
def advance (state : State) (tokens : List Token) : Except SyntaxError State :=
  tokens.foldlM (fun state t => step t state) state

theorem unfilledIn_cons (frame : Frame) (frames : List Frame) :
    unfilledIn (frame :: frames) = unfilledIn frames ++ frame.unfilled := by
  simp [unfilledIn]

/-- Fields for which there is no child yet do not count. -/
theorem zip_of_length {before todo : List Field} {children : List Tree}
    (h : before.length = children.length) :
    (before ++ todo).zip children = before.zip children := by
  have hzip : (before ++ todo).zip (children ++ []) = _ := List.zip_append h
  simpa using hzip

/-- One more child. -/
theorem Frame.Sound.unfilled_add {column : Nat} {label : Label} {done : List Tree} {f : Field}
    {todo : List Field} (h : (Frame.node column label done (f :: todo)).Sound) (child : Tree) :
    ((Frame.node column label done (f :: todo)).add child).unfilled =
      (Frame.node column label done (f :: todo)).unfilled ++ f.unfilled child := by
  obtain ⟨_, before, hfields, hlength, _, _⟩ := h
  have hreversed : before.length = done.reverse.length := by simpa using hlength
  rw [Frame.add, List.tail_cons, Frame.unfilled, Frame.unfilled, hfields, zip_of_length hreversed,
    List.reverse_cons, List.zip_append hreversed, List.zip_cons_cons, List.flatMap_append,
    List.flatMap_cons]
  simp

theorem unfilled_addItem (f : Field) (done : List Tree) (child : Tree) :
    ((Frame.list f done).add child).unfilled = (Frame.list f done).unfilled ++ child.unfilled := by
  simp [Frame.add, Frame.unfilled]

/-- What stands for fields that are left out leaves no required field empty. -/
theorem defaults_unfilled {kind : Kind} {fields : List Field} {children : List Tree}
    (h : defaults kind fields = .ok children) :
    ((fields.zip children).flatMap fun p => p.1.unfilled p.2) = [] := by
  induction fields generalizing children with
  | nil => simp
  | cons f fields ih =>
    rw [defaults] at h
    cases hrest : defaults kind fields with
    | error cause =>
      rw [hrest] at h
      split at h
      · simp [Except.map] at h
      · split at h <;> simp [Except.map] at h
    | ok rest =>
      rw [hrest] at h
      split at h
      · obtain rfl : .list [] :: rest = children := by simpa [Except.map] using h
        rw [List.zip_cons_cons, List.flatMap_cons, ih hrest,
          unfilled_held (by simp [Field.lacks, Tree.isMissing]), unfilled_list]
        rfl
      · split at h
        · rename_i hopt
          obtain rfl : .missing :: rest = children := by simpa [Except.map] using h
          rw [List.zip_cons_cons, List.flatMap_cons, ih hrest,
            unfilled_held (by simp [Field.lacks, hopt])]
          rfl
        · simp at h

/-- A node that is closed. -/
theorem Frame.Sound.unfilled_close {column : Nat} {label : Label} {done rest : List Tree}
    {todo : List Field} (h : (Frame.node column label done todo).Sound)
    (hrest : defaults label.kind todo = .ok rest) :
    (Tree.node label (done.reverse ++ rest)).unfilled =
      (Frame.node column label done todo).unfilled := by
  obtain ⟨_, before, hfields, hlength, _, _⟩ := h
  have hreversed : before.length = done.reverse.length := by simpa using hlength
  rw [unfilled_node, Frame.unfilled, hfields, List.zip_append hreversed, List.flatMap_append,
    defaults_unfilled hrest, List.append_nil, zip_of_length hreversed]

/-! ## Steps -/

/-- The required fields that are empty in the state that a step leads to, if any. -/
def Empties (result : Except SyntaxError State) (fields : List Field) : Prop :=
  ∀ state, result = .ok state → state.unfilled = fields

theorem empties_ok {state : State} {fields : List Field} (h : state.unfilled = fields) :
    Empties (.ok state) fields := by
  intro state' heq
  obtain rfl : state = state' := by simpa using heq
  exact h

theorem empties_fail (frames : List Frame) (cause : Cause) (fields : List Field) :
    Empties (fail frames cause) fields := by
  intro state heq
  simp [fail] at heq

theorem supply_empties {column : Nat} {label : Label} {children : List Tree} {frames : List Frame}
    (hframes : Waits frames) :
    Empties (supply column label children frames)
      (unfilledIn frames ++ (Tree.node label children).unfilled) := by
  have hheld : ∀ f : Field, f.lacks (.node label children) = false :=
    fun f => by simp [Field.lacks, Tree.isMissing]
  cases hframes with
  | nil => exact empties_ok rfl
  | node hopen _ =>
    rw [supply, Frame.accepts?]
    dsimp only
    split
    · cases hopen with
      | node hsound _ =>
        refine empties_ok ?_
        rw [State.unfilled, unfilledIn_cons, unfilledIn_cons, hsound.unfilled_add, unfilled_held (hheld _),
          List.append_assoc]
    · exact empties_fail _ _ _
  | list hopen =>
    rw [supply, Frame.accepts?]
    dsimp only
    split
    · refine empties_ok ?_
      rw [State.unfilled, unfilledIn_cons, unfilledIn_cons, unfilled_addItem, List.append_assoc]
    · exact empties_fail _ _ _

theorem unfilled_leaf (label : Label) : (Tree.node label []).unfilled = [] := by
  simp [unfilled_node]

theorem beginChild_empties {t : Token} {frame : Frame} {frames : List Frame}
    (h : Waits (frame :: frames)) :
    Empties (beginChild t frame frames) (unfilledIn (frame :: frames)) := by
  have hleaf : ∀ label, Empties (supply t.column label [] (frame :: frames))
      (unfilledIn (frame :: frames)) := by
    intro label
    have hsupply : Empties (supply t.column label [] (frame :: frames))
        (unfilledIn (frame :: frames) ++ (Tree.node label []).unfilled) := supply_empties h
    rwa [unfilled_leaf, List.append_nil] at hsupply
  rw [beginChild]
  split
  · exact empties_ok rfl
  · exact hleaf _
  · split
    · exact hleaf _
    · exact empties_fail _ _ _
  · exact hleaf _
  · exact empties_fail _ _ _

theorem openNode_unfilled (column : Nat) (label : Label) (frames : List Frame) :
    (openNode column label frames).unfilled = unfilledIn frames := by
  simp [openNode, State.unfilled, unfilledIn_cons, Frame.unfilled]

theorem openWith_empties (column : Nat) (frames : List Frame) (label : Except Cause Label) :
    Empties (openWith column frames label) (unfilledIn frames) := by
  cases label with
  | ok label => exact empties_ok (openNode_unfilled column label frames)
  | error cause => exact empties_fail _ _ _

/-- The fields among those that were left empty which are required. -/
def required (fields : List Field) : List Field := fields.filter fun f => !f.optional

theorem empties_required_nil {result : Except SyntaxError State} {fields : List Field}
    (h : Empties result fields) : Empties result (fields ++ required []) := by
  rwa [required, List.filter_nil, List.append_nil]

section

variable {t : Token} {column : Nat} {label : Label} {done : List Tree} {frames : List Frame}

/-- Closing a node fills in the fields that are left, or fails. -/
theorem closeNode_empties {todo : List Field} (hsound : (Frame.node column label done todo).Sound)
    (hwaits : Waits frames) :
    Empties (match defaults label.kind todo with
        | .ok rest => supply column label (done.reverse ++ rest) frames
        | .error cause => fail frames cause)
      (unfilledIn (.node column label done todo :: frames)) := by
  split
  · rename_i rest hrest
    have hsupply : Empties (supply column label (done.reverse ++ rest) frames)
        (unfilledIn frames ++ (Tree.node label (done.reverse ++ rest)).unfilled) :=
      supply_empties hwaits
    rwa [hsound.unfilled_close hrest, ← unfilledIn_cons] at hsupply
  · exact empties_fail _ _ _

/-- `nil` in place of a child leaves the field empty, which counts if the field is required. -/
theorem unfilled_nil {f : Field} {todo : List Field}
    (hsound : (Frame.node column label done (f :: todo)).Sound) (hsingle : f.isList = false) :
    unfilledIn ((Frame.node column label done (f :: todo)).add .missing :: frames) =
      unfilledIn (.node column label done (f :: todo) :: frames) ++ required [f] := by
  have hempty : f.unfilled .missing = required [f] := by
    cases hopt : f.optional <;>
      simp [Field.unfilled, Field.lacks, Tree.isMissing, Tree.unfilled, Tree.gapsAt, required,
        hsingle, hopt]
  rw [unfilledIn_cons, unfilledIn_cons, hsound.unfilled_add, hempty, List.append_assoc]

theorem stepInside_node_empties {todo : List Field}
    (hsound : (Frame.node column label done todo).Sound) (hwaits : Waits frames) :
    Empties (stepInside t (.node column label done todo) frames)
      (unfilledIn (.node column label done todo :: frames) ++
        required ((State.inside (.node column label done todo) frames).leaves t)) := by
  rw [stepInside.eq_def]
  dsimp only
  split
  · -- a parenthesis closes the node, whatever it would read next
    rename_i hclose
    have hleaves : (State.inside (.node column label done todo) frames).leaves t = [] := by
      simp [State.leaves, Token.isWord, hclose]
    rw [hleaves]
    exact empties_required_nil (closeNode_empties hsound hwaits)
  · cases todo with
    | nil => exact empties_fail _ _ _
    | cons f todo =>
      dsimp only
      split
      · rename_i hlist
        split
        · refine empties_ok ?_
          simp [State.unfilled, unfilledIn_cons, Frame.unfilled, State.leaves, State.field?,
            required, hlist]
        · exact empties_fail _ _ _
      · rename_i hsingle
        have hsingle' : f.isList = false := by simpa using hsingle
        split
        · -- the word that leaves the field empty
          rename_i hnil
          refine empties_ok ?_
          rw [State.unfilled, unfilled_nil hsound hsingle']
          simp [State.leaves, State.field?, hsingle, hnil]
        · rename_i hword
          have hleaves : (State.inside (.node column label done (f :: todo)) frames).leaves t =
              [] := by
            simp [State.leaves, State.field?, hword]
          rw [hleaves]
          exact empties_required_nil (beginChild_empties (.node (.node hsound hwaits) hsingle'))

theorem stepInside_list_empties {items : List Tree} {f : Field} {todo : List Field}
    (hsound : (Frame.list f items).Sound) (howner : Open (.node column label done (f :: todo)) frames) :
    Empties (stepInside t (.list f items) (.node column label done (f :: todo) :: frames))
      (unfilledIn (.list f items :: .node column label done (f :: todo) :: frames)) := by
  rw [stepInside.eq_def]
  dsimp only
  split
  · cases howner with
    | node hnode hwaits =>
      refine empties_ok ?_
      have hheld : f.lacks (.list items.reverse) = false := by
        simp [Field.lacks, Tree.isMissing]
      rw [State.unfilled, unfilledIn_cons, unfilledIn_cons, unfilledIn_cons, hnode.unfilled_add,
        unfilled_held hheld, unfilled_list, List.append_assoc]
      rfl
  · split
    · exact empties_fail _ _ _
    · exact beginChild_empties (.list (.list hsound howner))

end

theorem stepInside_empties {t : Token} {frame : Frame} {frames : List Frame}
    (h : Open frame frames) :
    Empties (stepInside t frame frames)
      (unfilledIn (frame :: frames) ++ required ((State.inside frame frames).leaves t)) := by
  cases h with
  | node hsound hwaits => exact stepInside_node_empties hsound hwaits
  | list hsound howner => exact empties_required_nil (stepInside_list_empties hsound howner)

/-- A node without attribute is open from the start. -/
theorem stepInside_bare_empties (t : Token) (column : Nat) {frames : List Frame} (h : Waits frames)
    (label : Label) (hlabel : label.isWritable = true) :
    Empties (stepInside t (.node column label [] label.fields) frames)
      (unfilledIn frames ++ required (label.fields.head?.toList.filter
        fun f => !f.isList && t.isWord "nil")) := by
  have hopen : Open (.node column label [] label.fields) frames :=
    .node ⟨hlabel, [], by simp⟩ h
  have hnone : (Frame.node column label [] label.fields).unfilled = [] := by simp [Frame.unfilled]
  have hinside := stepInside_empties (t := t) hopen
  rwa [unfilledIn_cons, hnone, List.append_nil] at hinside

/-- A jump takes the word behind it as its target, or else has none. -/
theorem openJump_empties {t : Token} {column : Nat} {label : Text → Label} {frames : List Frame}
    (h : Waits frames) (hlabel : (label []).isWritable = true) (hfields : (label []).fields = []) :
    Empties (openJump column label t frames) (unfilledIn frames ++ required []) := by
  rw [openJump]
  split
  · exact empties_required_nil (empties_ok (openNode_unfilled _ _ _))
  · simpa [hfields] using stepInside_bare_empties t column h (label []) hlabel

theorem stepAttribute_empties {t : Token} {column : Nat} {kind : Kind} {frames : List Frame}
    (h : Waits frames) :
    Empties (stepAttribute t column kind frames)
      (unfilledIn frames ++ required ((State.attribute column kind frames).leaves t)) := by
  rw [stepAttribute.eq_def]
  cases kind
  case identifierExpression => exact empties_required_nil (openWith_empties _ _ _)
  case bindingIdentifier => exact empties_required_nil (openWith_empties _ _ _)
  case functionDeclaration => exact empties_required_nil (openWith_empties _ _ _)
  case staticMemberExpression => exact empties_required_nil (openWith_empties _ _ _)
  case breakStatement => exact openJump_empties h rfl rfl
  case continueStatement => exact openJump_empties h rfl rfl
  case binaryExpression => exact empties_required_nil (openWith_empties _ _ _)
  case unaryExpression => exact empties_required_nil (openWith_empties _ _ _)
  case numericLiteral =>
    refine empties_required_nil ?_
    dsimp only
    split
    · exact empties_ok rfl
    · split
      · exact openWith_empties _ _ _
      · split
        · exact openWith_empties _ _ _
        · split
          · exact openWith_empties _ _ _
          · exact empties_fail _ _ _
  case stringLiteral =>
    refine empties_required_nil ?_
    dsimp only
    split
    · exact openWith_empties _ _ _
    · exact empties_fail _ _ _
  case booleanLiteral =>
    refine empties_required_nil ?_
    dsimp only
    split
    · exact openWith_empties _ _ _
    · split
      · exact openWith_empties _ _ _
      · exact empties_fail _ _ _
  all_goals exact stepInside_bare_empties t column h (.blank _) rfl

/-- A step leaves a required field empty exactly where it meets `nil` in place of the child. -/
theorem step_empties {t : Token} {state : State} (h : state.Sound) :
    Empties (step t state) (state.unfilled ++ required (state.leaves t)) := by
  rcases state with _ | ⟨column, frames⟩ | ⟨column, kind, frames⟩ | ⟨column, frames⟩ |
    ⟨frame, frames⟩ | tree
  · refine empties_required_nil ?_
    rw [step]
    split
    · exact empties_ok rfl
    · exact empties_fail _ _ _
  · refine empties_required_nil ?_
    rw [step]
    split
    · split
      · exact empties_ok rfl
      · exact empties_fail _ _ _
    · exact empties_fail _ _ _
  · exact stepAttribute_empties h
  · refine empties_required_nil ?_
    rw [step]
    split
    · exact empties_ok (openNode_unfilled _ _ _)
    · exact empties_fail _ _ _
  · exact stepInside_empties h
  · exact empties_fail _ _ _

/-! ## Runs -/

/-- The end of the text is never taken as a part of it. -/
theorem step_atEnd (state : State) : ∃ e, step .atEnd state = .error e := by
  have hinside : ∀ frame frames, ∃ e, stepInside .atEnd frame frames = .error e := by
    intro frame frames
    cases frame with
    | node column label done todo =>
      cases todo with
      | nil => exact ⟨_, rfl⟩
      | cons f todo =>
        cases hlist : f.isList <;>
          exact ⟨_, by simp [stepInside, Token.atEnd, Token.isWord, hlist, beginChild, fail]; rfl⟩
    | list f done => exact ⟨_, rfl⟩
  rcases state with _ | ⟨column, frames⟩ | ⟨column, kind, frames⟩ | ⟨column, frames⟩ |
    ⟨frame, frames⟩ | tree
  · exact ⟨_, rfl⟩
  · exact ⟨_, rfl⟩
  · cases kind <;> first | exact hinside _ _ | exact ⟨_, rfl⟩
  · exact ⟨_, rfl⟩
  · exact hinside frame frames
  · exact ⟨_, rfl⟩

/-- Every state that the tokens of a text lead to is sound. -/
theorem advance_sound {state next : State} (h : state.Sound) {tokens : List Token}
    (htokens : ∀ token ∈ tokens, token.Spelled) (hnext : advance state tokens = .ok next) :
    next.Sound := by
  induction tokens generalizing state with
  | nil =>
    obtain rfl : state = next := by simpa [advance, pure, Except.pure] using hnext
    exact h
  | cons token rest ih =>
    obtain ⟨htoken, hrest⟩ := List.forall_mem_cons.mp htokens
    rw [advance, List.foldlM_cons] at hnext
    cases hstep : step token state with
    | error e => simp [hstep, bind, Except.bind] at hnext
    | ok middle =>
      rw [hstep] at hnext
      exact ih (step_safe htoken h middle hstep) hrest hnext

/-- The required fields without child are those at which the reader met `nil`. -/
theorem readTokens_unfilled {state : State} (h : state.Sound) {tokens : List Token}
    (htokens : ∀ token ∈ tokens, token.Spelled) {t : Tree}
    (hread : readTokens state tokens = .ok t) :
    t.unfilled = state.unfilled ++ required (omitted state tokens) := by
  induction tokens generalizing state with
  | nil =>
    rw [readTokens.eq_def] at hread
    split at hread
    · obtain rfl := Except.ok.inj hread
      simp [State.unfilled, omitted, required]
    · split at hread
      · simp [fail] at hread
      · simp at hread
    · simp_all
  | cons token rest ih =>
    obtain ⟨htoken, hrest⟩ := List.forall_mem_cons.mp htokens
    rw [readTokens] at hread
    cases hstep : step token state with
    | error e => simp [hstep] at hread
    | ok next =>
      rw [hstep] at hread
      rw [ih (step_safe htoken h next hstep) hrest hread, step_empties h next hstep, omitted, hstep]
      simp [required]

end SExpression

/-! ## The reader on any text -/

/-- An operation has an operator. -/
def Label.isOperated : Label → Bool
  | .binaryExpression operator | .unaryExpression operator => !operator.isEmpty
  | _ => true

theorem Label.isOperated_of_isWritable {label : Label} (h : label.isWritable = true) :
    label.isOperated = true := by
  cases label with
  | binaryExpression operator | unaryExpression operator =>
    cases operator with
    | nil => exact absurd h (by decide)
    | cons b rest => rfl
  | _ => rfl

theorem SExpression.SyntaxError.names_syntax (e : SyntaxError) :
    Text.ofString "s-expr syntax error: " <:+: e.message :=
  ⟨e.places.flatMap Place.message, e.cause.message, by rw [SyntaxError.message]⟩

/-- A tree that is well-formed but for its gaps is valid if it has none. -/
theorem invalid?_eq_none_of_gaps {t : Tree} (h : t.isWellFormed .loose = true)
    (hnone : t.gaps = []) : t.invalid? = none := by
  have hviolations := violations_eq_gaps h
  cases t with
  | missing => simp [Tree.isWellFormed, Tree.kind?] at h
  | list items => simp [Tree.isWellFormed, Tree.kind?] at h
  | node label children => simp [Tree.invalid?, hviolations, hnone]

/-- Whatever the text, every state on the way is sound and takes no token past the end.  An error
names the syntax.  A tree obeys the schema but for its gaps, each of which is one violation; they
stand where the text has `nil` for a required child, so that a text without `nil` for a child gives
a valid tree. -/
theorem read_sound (text : Text) :
    (∀ tokens front state, SExpression.scan text = .ok tokens → front <+: tokens →
      SExpression.advance .start front = .ok state →
        state.Sound ∧ ∃ e, SExpression.step .atEnd state = .error e) ∧
    match Tree.read text with
    | .error e => Text.ofString "s-expr syntax error: " <:+: e.message
    | .ok t =>
      t.isWellFormed .loose = true ∧
      (t.allNodes fun label _ => label.isOperated) = true ∧
      t.violations = t.gaps.map Gap.violation ∧
      ∃ tokens, SExpression.scan text = .ok tokens ∧
        t.gaps.map Gap.field = SExpression.required (SExpression.omitted .start tokens) ∧
        (SExpression.omitted .start tokens = [] → t.invalid? = none) := by
  have hstart : SExpression.State.Sound .start := trivial
  refine ⟨?_, ?_⟩
  · intro tokens front state hscan hfront hstate
    have hspelled := SExpression.scanFrom_spelled hscan
    exact ⟨SExpression.advance_sound hstart (fun token hmem => hspelled token (hfront.subset hmem))
      hstate, SExpression.step_atEnd state⟩
  · cases hread : Tree.read text with
    | error e => exact e.names_syntax
    | ok t =>
      have hwritable := read_writable hread
      have hformed := t.isWellFormed_of_isWritable hwritable
      have hkind : t.kind?.isSome = true := by
        rw [Tree.isWritable, Bool.and_eq_true] at hwritable
        exact hwritable.1
      refine ⟨hformed, t.allNodes_mono (fun _ _ => Label.isOperated_of_isWritable)
        (Tree.isWritable_iff.mp hwritable).2, violations_eq_gaps hformed, ?_⟩
      rw [Tree.read] at hread
      split at hread
      · rename_i tokens hscan
        have hunfilled := SExpression.readTokens_unfilled hstart
          (SExpression.scanFrom_spelled hscan) hread
        -- the gaps of the tree are the required fields for which the text says `nil`
        have hgaps : t.gaps.map Gap.field =
            SExpression.required (SExpression.omitted .start tokens) := by
          rw [fields_gaps t hkind, hunfilled]
          rfl
        refine ⟨tokens, hscan, hgaps, fun hnone => invalid?_eq_none_of_gaps hformed ?_⟩
        rw [hnone] at hgaps
        exact List.map_eq_nil_iff.mp hgaps
      · simp at hread

end ScriptSimplifier
