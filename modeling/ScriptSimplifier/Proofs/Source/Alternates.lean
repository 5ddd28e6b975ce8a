import ScriptSimplifier.Proofs.Source.Texts

/-!
# Which if an else belongs to

In source text an `else` belongs to the nearest `if` before it, within the same braces, that has no
`else` yet.  The printer puts braces around a consequent that is itself an if statement without
alternate, but not around one that only ends in such a statement, at the end of a loop or of another
alternate.  Every `else` therefore belongs to the statement it was printed for if and only if no
consequent before an `else` hides an open if in that way (`alternates_attached`).
-/

namespace ScriptSimplifier

namespace Source

/-! ## Printed words -/

/-- The way from the root of a tree to an element: the position among the children or items at each
step. -/
abbrev Address := List Nat

/-- A piece of printed text.  The words `if` and `else` carry the address of their statement. -/
inductive Mark where
  | text (t : Text)
  | opening
  | closing
  | between
  | ifWord (address : Address)
  | elseWord (address : Address)
  deriving DecidableEq

/-- The text of a mark. -/
def Mark.spelling : Mark → Text
  | .text t => t
  | .opening => "\x7b"
  | .closing => "\x7d"
  | .between => " "
  | .ifWord _ => "if"
  | .elseWord _ => "else"

/-- The marks of something in braces. -/
def inBraces (marks : List Mark) : List Mark :=
  [.opening, .text " "] ++ marks ++ [.text " ", .closing]

mutual

/-- What is printed for a statement, with the words that matter marked. -/
def marks (address : Address) : Tree → List Mark
  | .missing => []
  | .list items => itemMarks address 0 items
  | .node label children =>
    match label, children with
    | .blockStatement, [block] => marks (address ++ [0]) block
    | .block, [statements] | .functionBody, [statements] =>
      if statements.items.isEmpty then [.opening, .closing]
      else inBraces (marks (address ++ [0]) statements)
    | .ifStatement, [test, consequent, alternate] =>
      let first := marks (address ++ [1]) consequent
      [.ifWord address, .text (Text.ofString " (" ++ test.text ++ Text.ofString ") ")] ++
        if alternate.isMissing then first
        else
          (if isOpenIf consequent then inBraces first else first) ++
            [.text " ", .elseWord address, .text " "] ++ marks (address ++ [2]) alternate
    | .whileStatement, [test, body] =>
      .text (Text.ofString "while (" ++ test.text ++ Text.ofString ") ") ::
        marks (address ++ [1]) body
    | .functionDeclaration name, [params, body] =>
      .text (Text.ofString "function " ++ name ++ Text.ascii '(' ::
          Text.join ", " (params.items.map Tree.text) ++ Text.ofString ") ") ::
        marks (address ++ [1]) body
    | label, children => [.text (Tree.node label children).text]

/-- What is printed for the items of a list, the first of which has the given position. -/
def itemMarks (address : Address) (position : Nat) : List Tree → List Mark
  | [] => []
  | [t] => marks (address ++ [position]) t
  | t :: rest =>
    marks (address ++ [position]) t ++ .between :: itemMarks address (position + 1) rest

end

/-! ## The rule of the nearest if -/

/-- The if to which each `else` belongs: the nearest one that is pending, if there is any.  Braces
hide what is pending outside of them, and nothing stays pending from one statement of a list to the
next. -/
def attachments (pending : List Address) (outside : List (List Address)) :
    List Mark → List (Address × Option Address)
  | [] => []
  | .text _ :: rest => attachments pending outside rest
  | .opening :: rest => attachments [] (pending :: outside) rest
  | .closing :: rest => attachments (outside.head?.getD []) outside.tail rest
  | .between :: rest => attachments [] outside rest
  | .ifWord address :: rest => attachments (address :: pending) outside rest
  | .elseWord address :: rest =>
    (address, pending.head?) :: attachments pending.tail outside rest

/-- Every `else` belongs to the statement for which it was printed. -/
def Attached (found : List (Address × Option Address)) : Prop := ∀ a ∈ found, a.2 = some a.1

/-- A statement whose text ends in an if statement without alternate. -/
def endsOpen : Tree → Bool
  | .node .ifStatement [_, _, alternate] => alternate.isMissing || endsOpen alternate
  | .node .whileStatement [_, body] => endsOpen body
  | _ => false

/-- An if statement with alternate whose consequent is put in braces or does not end in an if
statement without alternate. -/
def keepsAlternate : Label → List Tree → Bool
  | .ifStatement, [_, consequent, alternate] =>
    alternate.isMissing || isOpenIf consequent || !endsOpen consequent
  | _, _ => true

/-! ## Reading marks -/

variable {p : Label → List Tree → Bool}

theorem attached_append {found more : List (Address × Option Address)} :
    Attached (found ++ more) ↔ Attached found ∧ Attached more := by
  simp [Attached, or_imp, forall_and]

/-- Marks that change nothing outside of them, whatever they leave pending. -/
def Confined (inner : List Mark) (found : List (Address × Option Address)) : Prop :=
  ∀ pending outside rest, ∃ pending',
    attachments pending outside (inner ++ rest) = found ++ attachments pending' outside rest

/-- Behind braces everything is pending that was pending before them. -/
theorem attachments_inBraces {inner : List Mark} {found : List (Address × Option Address)}
    (h : Confined inner found) (pending : List Address) (outside : List (List Address))
    (rest : List Mark) :
    attachments pending outside (inBraces inner ++ rest) =
      found ++ attachments pending outside rest := by
  obtain ⟨pending', hinner⟩ := h [] (pending :: outside) (.text " " :: .closing :: rest)
  simp [inBraces, attachments, hinner]

/-- What the marks of a statement amount to: the ifs found for its alternates, and those of its own
ifs that are left pending, the nearest first. -/
structure Attaches (address : Address) (t : Tree) (found : List (Address × Option Address))
    (left : List Address) : Prop where
  run : ∀ pending outside rest, attachments pending outside (marks address t ++ rest) =
    found ++ attachments (left ++ pending) outside rest
  below : ∀ a ∈ left, address <+: a
  attached : Attached found ↔ t.allNodes keepsAlternate = true
  ends : t.allNodes keepsAlternate = true → (left = [] ↔ endsOpen t = false)

namespace Attaches

variable {address : Address} {t : Tree} {found : List (Address × Option Address)}
  {left : List Address}

theorem confined (h : Attaches address t found left) : Confined (marks address t) found :=
  fun pending outside rest => ⟨left ++ pending, h.run pending outside rest⟩

/-- A statement without statements in it. -/
theorem simple (text : Text) (hmarks : marks address t = [.text text])
    (hkeeps : t.allNodes keepsAlternate = true) (hends : endsOpen t = false) :
    Attaches address t [] [] where
  run pending outside rest := by simp [hmarks, attachments]
  below := by simp
  attached := by simp [Attached, hkeeps]
  ends := by simp [hends]

end Attaches

theorem items_confined {items : List Tree}
    (h : ∀ t ∈ items, ∀ address, ∃ found left, Attaches address t found left)
    (address : Address) (position : Nat) :
    ∃ found, Confined (itemMarks address position items) found ∧
      (Attached found ↔ ∀ t ∈ items, t.allNodes keepsAlternate = true) := by
  induction items generalizing position with
  | nil => exact ⟨[], fun pending _ _ => ⟨pending, rfl⟩, by simp [Attached]⟩
  | cons t rest ih =>
    obtain ⟨hhere, hrest⟩ := List.forall_mem_cons.mp h
    obtain ⟨found, left, hattaches⟩ := hhere (address ++ [position])
    cases rest with
    | nil => exact ⟨found, hattaches.confined, by simp [hattaches.attached]⟩
    | cons u rest =>
      obtain ⟨more, hmore, hattached⟩ := ih hrest (position + 1)
      refine ⟨found ++ more, fun pending outside after => ?_, ?_⟩
      · obtain ⟨pending', hrun⟩ := hmore [] outside after
        refine ⟨pending', ?_⟩
        rw [itemMarks, List.append_assoc, hattaches.run, List.cons_append, attachments, hrun,
          List.append_assoc]
        simp
      · rw [attached_append, hattaches.attached, hattached, List.forall_mem_cons (a := t)]

/-- A node that holds statements in braces. -/
theorem holder_attaches {items : List Tree} {label : Label}
    (hlabel : label = .block ∨ label = .functionBody)
    (h : ∀ t ∈ items, ∀ address, ∃ found left, Attaches address t found left)
    (address : Address) :
    ∃ found, Attaches address (.node label [.list items]) found [] := by
  obtain ⟨found, hconfined, hattached⟩ := items_confined h (address ++ [0]) 0
  have hkeeps : (Tree.node label [.list items]).allNodes keepsAlternate = true ↔
      ∀ t ∈ items, t.allNodes keepsAlternate = true := by
    rcases hlabel with rfl | rfl <;> simp [allNodes_node, allNodes_list, keepsAlternate]
  have hends : endsOpen (.node label [.list items]) = false := by
    rcases hlabel with rfl | rfl <;> rfl
  refine ⟨found, fun pending outside rest => ?_, by simp, hattached.trans hkeeps.symm,
    by simp [hends]⟩
  have hmarks : marks address (.node label [.list items]) =
      if items.isEmpty then [.opening, .closing]
      else inBraces (itemMarks (address ++ [0]) 0 items) := by
    rcases hlabel with rfl | rfl <;> rfl
  rw [hmarks]
  cases items with
  | nil =>
    obtain ⟨pending', hnone⟩ := hconfined [] [] []
    obtain rfl : found = [] := by simpa [itemMarks, attachments] using hnone.symm
    simp [attachments]
  | cons t rest' => exact attachments_inBraces hconfined pending outside rest

theorem attachments_texts (texts : List Text) (pending : List Address)
    (outside : List (List Address)) (rest : List Mark) :
    attachments pending outside (texts.map .text ++ rest) = attachments pending outside rest := by
  induction texts with
  | nil => rfl
  | cons text texts ih => rw [List.map_cons, List.cons_append, attachments, ih]

/-- An element whose statements are those of a part of it, perhaps behind some text. -/
theorem Attaches.wrap {address : Address} {t body : Tree} {i : Nat}
    {found : List (Address × Option Address)} {left : List Address}
    (h : Attaches (address ++ [i]) body found left) (texts : List Text)
    (hmarks : marks address t = texts.map .text ++ marks (address ++ [i]) body)
    (hkeeps : t.allNodes keepsAlternate = body.allNodes keepsAlternate)
    (hends : endsOpen t = endsOpen body) : Attaches address t found left where
  run pending outside rest := by
    rw [hmarks, List.append_assoc, attachments_texts, h.run]
  below a ha := (List.prefix_append address [i]).trans (h.below a ha)
  attached := by rw [h.attached, hkeeps]
  ends := by rw [hkeeps, hends]; exact h.ends

theorem Expression.keepsAlternate {e : Tree} (h : Expression p e) :
    e.allNodes Source.keepsAlternate = true := by
  refine h.allNodes fun label children hlabel _ => ?_
  cases label <;> first | rfl | simp [Label.kind, Kind.isExpression] at hlabel

section Branches

variable {address : Address} {test consequent alternate : Tree}
  {found more : List (Address × Option Address)} {left leftMore : List Address}

theorem Attaches.ifThen (htest : Expression p test)
    (h : Attaches (address ++ [1]) consequent found left) :
    Attaches address (.node .ifStatement [test, consequent, .missing]) found
      (left ++ [address]) where
  run pending outside rest := by
    rw [List.append_assoc]
    exact h.run (address :: pending) outside rest
  below a ha := by
    rcases List.mem_append.mp ha with ha | ha
    · exact (List.prefix_append address [1]).trans (h.below a ha)
    · obtain rfl := List.mem_singleton.mp ha
      exact List.prefix_rfl
  attached := by
    simp [h.attached, keepsAlternate, Tree.isMissing, Tree.allNodes, allNodesOf,
      Expression.keepsAlternate htest]
  ends _ := by simp [endsOpen, Tree.isMissing]

/-- The ifs of a consequent that are pending before the `else`. -/
def pendingBefore (consequent : Tree) (left : List Address) : List Address :=
  if isOpenIf consequent then [] else left

theorem Attaches.first (h : Attaches (address ++ [1]) consequent found left)
    (pending : List Address) (outside : List (List Address)) (rest : List Mark) :
    attachments pending outside ((if isOpenIf consequent then
      inBraces (marks (address ++ [1]) consequent) else marks (address ++ [1]) consequent) ++ rest) =
      found ++ attachments (pendingBefore consequent left ++ pending) outside rest := by
  by_cases hopen : isOpenIf consequent = true
  · rw [if_pos hopen, pendingBefore, if_pos hopen]
    exact attachments_inBraces h.confined pending outside rest
  · rw [if_neg hopen, pendingBefore, if_neg hopen]
    exact h.run pending outside rest

/-- The `else` finds its own if exactly if none of the consequent is pending. -/
theorem Attaches.head_iff (h : Attaches (address ++ [1]) consequent found left) :
    (pendingBefore consequent left ++ [address]).head? = some address ↔
      pendingBefore consequent left = [] := by
  cases hleft : pendingBefore consequent left with
  | nil => simp
  | cons a rest =>
    have hmem : a ∈ left := by
      have ha : a ∈ pendingBefore consequent left := by simp [hleft]
      rw [pendingBefore] at ha
      split at ha
      · simp at ha
      · exact ha
    have hlength := (h.below a hmem).length_le
    have hne : a ≠ address := by
      rintro rfl
      rw [List.length_append, List.length_singleton] at hlength
      omega
    simp [hne]

theorem Attaches.pendingBefore_iff (h : Attaches (address ++ [1]) consequent found left)
    (hkeeps : consequent.allNodes keepsAlternate = true) :
    pendingBefore consequent left = [] ↔
      (isOpenIf consequent || !endsOpen consequent) = true := by
  cases hopen : isOpenIf consequent <;> simp [pendingBefore, hopen, h.ends hkeeps]

theorem Attaches.ifElse (htest : Expression p test) (halternate : alternate.isMissing = false)
    (h : Attaches (address ++ [1]) consequent found left)
    (hmore : Attaches (address ++ [2]) alternate more leftMore) :
    Attaches address (.node .ifStatement [test, consequent, alternate])
      (found ++ (address, (pendingBefore consequent left ++ [address]).head?) :: more)
      (leftMore ++ (pendingBefore consequent left ++ [address]).tail) := by
  have hkeeps : (Tree.node .ifStatement [test, consequent, alternate]).allNodes keepsAlternate =
      true ↔ (isOpenIf consequent || !endsOpen consequent) = true ∧
        consequent.allNodes keepsAlternate = true ∧ alternate.allNodes keepsAlternate = true := by
    simp [allNodes_node, keepsAlternate, halternate, Expression.keepsAlternate htest]
  -- the `else` goes to the last if statement that the consequent leaves waiting, and if it leaves
  -- none to the one it is written for, which waits below all of those
  refine ⟨fun pending outside rest => ?_, fun a ha => ?_, ?_, ?_⟩
  · have hmarks : marks address (.node .ifStatement [test, consequent, alternate]) =
        .ifWord address :: .text (Text.ofString " (" ++ test.text ++ Text.ofString ") ") ::
          ((if isOpenIf consequent then inBraces (marks (address ++ [1]) consequent)
            else marks (address ++ [1]) consequent) ++
            .text " " :: .elseWord address :: .text " " :: marks (address ++ [2]) alternate) := by
      simp [marks, halternate]
    rw [hmarks, List.cons_append, List.cons_append, attachments, attachments, List.append_assoc,
      h.first]
    simp only [List.cons_append, attachments, hmore.run]
    cases pendingBefore consequent left <;> simp
  · rcases List.mem_append.mp ha with ha | ha
    · exact (List.prefix_append address [2]).trans (hmore.below a ha)
    · have hmem := List.mem_of_mem_tail ha
      rcases List.mem_append.mp hmem with hmem | hmem
      · rw [pendingBefore] at hmem
        split at hmem
        · simp at hmem
        · exact (List.prefix_append address [1]).trans (h.below a hmem)
      · obtain rfl := List.mem_singleton.mp hmem
        exact List.prefix_rfl
  · rw [attached_append, h.attached, hkeeps]
    have hcons : Attached ((address, (pendingBefore consequent left ++ [address]).head?) :: more) ↔
        pendingBefore consequent left = [] ∧ alternate.allNodes keepsAlternate = true := by
      rw [← hmore.attached, ← h.head_iff]
      simp [Attached]
    rw [hcons]
    constructor
    · rintro ⟨hconsequent, hnone, halternate⟩
      exact ⟨(h.pendingBefore_iff hconsequent).mp hnone, hconsequent, halternate⟩
    · rintro ⟨hnone, hconsequent, halternate⟩
      exact ⟨hconsequent, (h.pendingBefore_iff hconsequent).mpr hnone, halternate⟩
  · intro hall
    obtain ⟨hnone, hconsequent, halternate'⟩ := hkeeps.mp hall
    rw [(h.pendingBefore_iff hconsequent).mpr hnone]
    simp [endsOpen, halternate, hmore.ends halternate']

end Branches

/-- The words of every statement can be read. -/
theorem statement_attaches {t : Tree} (h : Statement p t) (address : Address) :
    ∃ found left, Attaches address t found left := by
  induction h generalizing address with
  | expression _ he | returnValue _ he | throwing _ he =>
    refine ⟨[], [], .simple (Tree.text _) rfl ?_ rfl⟩
    simpa [allNodes_node, keepsAlternate] using Expression.keepsAlternate he
  | returnNothing | breaking | continuing | empty =>
    exact ⟨[], [], .simple (Tree.text _) rfl rfl rfl⟩
  | block _ _ _ ih =>
    obtain ⟨found, hblock⟩ := holder_attaches (.inl rfl) ih (address ++ [0])
    refine ⟨found, [], hblock.wrap [] rfl ?_ rfl⟩
    simp [Tree.allNodes, allNodesOf, keepsAlternate]
  | ifThen _ htest _ ih =>
    obtain ⟨found, left, hconsequent⟩ := ih (address ++ [1])
    exact ⟨found, left ++ [address], hconsequent.ifThen htest⟩
  | ifElse _ htest _ halternate ihconsequent ihalternate =>
    obtain ⟨found, left, hconsequent⟩ := ihconsequent (address ++ [1])
    obtain ⟨more, leftMore, hmore⟩ := ihalternate (address ++ [2])
    exact ⟨_, _, hconsequent.ifElse htest halternate.isMissing hmore⟩
  | loop _ htest _ ih =>
    obtain ⟨found, left, hbody⟩ := ih (address ++ [1])
    refine ⟨found, left, hbody.wrap [_] rfl ?_ rfl⟩
    simp [Tree.allNodes, allNodesOf, keepsAlternate, Expression.keepsAlternate htest]
  | function _ _ hparams _ ih =>
    obtain ⟨found, hbody⟩ := holder_attaches (.inr rfl) ih (address ++ [1])
    refine ⟨found, [], hbody.wrap [_] rfl ?_ rfl⟩
    have hnames : allNodesOf keepsAlternate _ = true := allNodesOf_iff.mpr fun t ht => by
      cases hparams t ht
      rfl
    simp [Tree.allNodes, allNodesOf, keepsAlternate, hnames]

/-! ## The marks spell the source -/

/-- The text of marks. -/
def spell (marks : List Mark) : Text := marks.flatMap Mark.spelling

@[simp] theorem spell_nil : spell [] = [] := rfl

@[simp] theorem spell_cons (mark : Mark) (rest : List Mark) :
    spell (mark :: rest) = mark.spelling ++ spell rest := by
  simp [spell]

@[simp] theorem spell_append (before after : List Mark) :
    spell (before ++ after) = spell before ++ spell after := by
  simp [spell]

theorem spell_inBraces (inner : List Mark) :
    spell (inBraces inner) = Text.ofString "\x7b " ++ spell inner ++ Text.ofString " \x7d" := by
  have hopening : Text.ofString "\x7b " = Text.ofString "\x7b" ++ Text.ofString " " := rfl
  have hclosing : Text.ofString " \x7d" = Text.ofString " " ++ Text.ofString "\x7d" := rfl
  simp [inBraces, Mark.spelling, hopening, hclosing]

theorem spell_items {items : List Tree}
    (h : ∀ t ∈ items, ∀ address, spell (marks address t) = t.text) (address : Address)
    (position : Nat) :
    spell (itemMarks address position items) = Text.join " " (items.map Tree.text) := by
  induction items generalizing position with
  | nil => rfl
  | cons t rest ih =>
    obtain ⟨hhere, hrest⟩ := List.forall_mem_cons.mp h
    cases rest with
    | nil => simp [itemMarks, hhere, Text.join]
    | cons u rest =>
      have hjoin : Text.join " " ((t :: u :: rest).map Tree.text) =
          t.text ++ Text.ofString " " ++ Text.join " " ((u :: rest).map Tree.text) :=
        List.intercalate_cons_cons
      show spell (marks (address ++ [position]) t ++
        .between :: itemMarks address (position + 1) (u :: rest)) = _
      rw [spell_append, hhere, spell_cons, ih hrest, hjoin, List.append_assoc]
      rfl

theorem spell_holder {items : List Tree}
    (h : ∀ t ∈ items, ∀ address, spell (marks address t) = t.text) (address : Address)
    {label : Label} (hlabel : label = .block ∨ label = .functionBody) :
    spell (marks address (.node label [.list items])) = braced (items.map Tree.text) := by
  have hmarks : marks address (.node label [.list items]) =
      if items.isEmpty then [.opening, .closing]
      else inBraces (itemMarks (address ++ [0]) 0 items) := by
    rcases hlabel with rfl | rfl <;> rfl
  rw [hmarks]
  cases items with
  | nil => rfl
  | cons t rest =>
    rw [if_neg (by simp), spell_inBraces, spell_items h, braced, if_neg (by simp)]

/-- The marks of a statement spell its source. -/
theorem spell_marks {t : Tree} (h : Statement p t) (address : Address) :
    spell (marks address t) = t.text := by
  induction h generalizing address with
  | expression | returnNothing | returnValue | throwing | breaking | continuing | empty =>
    simp [marks, Mark.spelling]
  | block _ _ hstatements ih =>
    rw [text_blockStatement hstatements, marks, spell_holder ih _ (.inl rfl)]
  | ifThen _ htest hconsequent ih =>
    have hword : Text.ofString "if (" = Text.ofString "if" ++ Text.ofString " (" := rfl
    have hnone : Tree.missing.isMissing = true := rfl
    rw [text_ifThen htest hconsequent]
    simp [marks, Mark.spelling, hnone, ih, hword]
  | ifElse _ htest hconsequent halternate ihconsequent ihalternate =>
    have hword : Text.ofString "if (" = Text.ofString "if" ++ Text.ofString " (" := rfl
    have helse : Text.ofString " else " =
        Text.ofString " " ++ Text.ofString "else" ++ Text.ofString " " := rfl
    rw [text_ifElse htest hconsequent halternate]
    simp only [marks, halternate.isMissing, Bool.false_eq_true, if_false, spell_append, spell_cons,
      spell_nil, Mark.spelling, hword, helse, ihalternate, List.append_nil, List.append_assoc]
    split <;> simp [spell_inBraces, ihconsequent]
  | loop _ htest hbody ih =>
    rw [text_while htest hbody, marks, spell_cons, ih]
    rfl
  | function _ _ hparams hstatements ih =>
    rw [text_function hparams hstatements, marks, spell_cons, spell_holder ih _ (.inr rfl)]
    rfl

end Source

/-! ## Alternates -/

/-- In the source of a valid statement every `else` belongs, by the rule of the nearest if, to the
statement whose alternate it starts, if and only if each if statement with alternate has a
consequent that is put in braces or does not end in an if statement without alternate. -/
theorem alternates_attached {t : Tree} (h : t.isWellFormed .full = true)
    (hin : t.isIn .statement = true) :
    t.source? = some (Source.spell (Source.marks [] t)) ∧
    (Source.Attached (Source.attachments [] [] (Source.marks [] t)) ↔
      t.allNodes Source.keepsAlternate = true) := by
  rw [Tree.isWellFormed, Bool.and_eq_true] at h
  have hstatement : Statement (fun _ _ => true) t :=
    statement_of_good t ⟨h.2, t.allNodes_true⟩ hin
  obtain ⟨found, left, hattaches⟩ := Source.statement_attaches hstatement []
  have hrun := hattaches.run [] [] []
  rw [List.append_nil, Source.attachments, List.append_nil] at hrun
  rw [hrun, Source.spell_marks hstatement]
  exact ⟨hstatement.source?_eq, hattaches.attached⟩

/-- A loop whose body is an if statement without alternate, in front of an `else`. -/
def hiddenIf : Tree :=
  .node .ifStatement
    [.node (.identifierExpression "a") [],
     .node .whileStatement
      [.node (.identifierExpression "b") [],
       .node .ifStatement
        [.node (.identifierExpression "c") [],
         .node .expressionStatement [.node (.identifierExpression "x") []], .missing]],
     .node .expressionStatement [.node (.identifierExpression "y") []]]

/-- The only `else` in the source of a valid statement may belong to an if statement other than its
own. -/
theorem alternate_lost : hiddenIf.isWellFormed .full = true ∧ hiddenIf.isIn .statement = true ∧
    hiddenIf.source? = some (Text.ofString "if (a) while (b) if (c) x; else y;") ∧
    Source.attachments [] [] (Source.marks [] hiddenIf) = [([], some [1, 1])] := by
  refine ⟨by decide, by decide, by decide, by decide⟩

/-- With the loop's body in a block, the `else` belongs to its own statement. -/
theorem alternates_attached_blockBody :
    let t : Tree := .node .ifStatement
      [.node (.identifierExpression "a") [],
       .node .whileStatement
        [.node (.identifierExpression "b") [],
         .node .blockStatement [.node .block [.list
          [.node .ifStatement
            [.node (.identifierExpression "c") [], .node .emptyStatement [], .missing]]]]],
       .node .emptyStatement []]
    t.isWellFormed .full = true ∧ t.isIn .statement = true ∧
      Source.Attached (Source.attachments [] [] (Source.marks [] t)) := by
  refine ⟨by decide, by decide, ?_⟩
  exact (alternates_attached (by decide) (by decide)).2.mpr (by decide)

end ScriptSimplifier
