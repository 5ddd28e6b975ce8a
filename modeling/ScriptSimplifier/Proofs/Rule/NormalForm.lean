import Mathlib.Data.List.Basic
import ScriptSimplifier.Proofs.Rule.Building
import ScriptSimplifier.Rule.Catalog

/-!
# Normal forms

What some simplifications make of a tree, computed from the children upward and in one go: a
statement list is settled from its end, and a node is reduced after its children.  Which
simplifications there are matters, but not their order.  The computation works on *sketches*, trees
in which every canonical fragment is just a value, because folding depends on what is one.

The facts about statement lists say that a step of a simplification at the list does not change what
the list settles to (`settle_dropped`, `settle_completed`, `settle_fused`).  They rest on joining by
commas being associative (`seq_assoc`).
-/

namespace ScriptSimplifier

/-- A tree in which the canonical fragments are values. -/
inductive Sketch where
  | missing
  | constant (v : Value)
  | node (label : Label) (children : List Sketch)
  | list (items : List Sketch)

namespace Sketch

/-! ## Comma expressions -/

/-- Two expressions joined by a comma. -/
def comma (left right : Sketch) : Sketch := .node (.binaryExpression Sequences.comma) [left, right]

/-- The expressions that a comma expression joins, from left to right. -/
def leaves : Sketch → List Sketch
  | .node (.binaryExpression operator) [left, right] =>
    if operator = Sequences.comma then leaves left ++ leaves right
    else [.node (.binaryExpression operator) [left, right]]
  | e => [e]

/-- Two expressions joined by commas, nested to the left. -/
def seq (left right : Sketch) : Sketch := right.leaves.foldl comma left

@[simp] theorem leaves_comma (left right : Sketch) :
    (comma left right).leaves = left.leaves ++ right.leaves := by
  simp [comma, leaves]

theorem leaves_eq_self {e : Sketch} (h : ∀ left right, e ≠ comma left right) : e.leaves = [e] := by
  fun_cases leaves e with
  | case1 left right => exact absurd rfl (h left right)
  | case2 operator left right hne => rfl
  | case3 e hnot => rfl

theorem leaves_leaves (e : Sketch) : ∀ l ∈ e.leaves, l.leaves = [l] := by
  fun_induction leaves e with
  | case1 left right ihl ihr =>
    intro l hl
    rcases List.mem_append.mp hl with hl | hl
    · exact ihl l hl
    · exact ihr l hl
  | case2 operator left right hne =>
    intro l hl
    obtain rfl := List.mem_singleton.mp hl
    rw [leaves, if_neg hne]
  | case3 e hnot =>
    intro l hl
    obtain rfl := List.mem_singleton.mp hl
    exact leaves.eq_2 l hnot

/-- The leaves of a first expression and of others that are leaves themselves. -/
theorem leaves_foldl_comma {ls : List Sketch} (hls : ∀ l ∈ ls, l.leaves = [l]) (e : Sketch) :
    (ls.foldl comma e).leaves = e.leaves ++ ls := by
  induction ls generalizing e with
  | nil => simp
  | cons l ls ih =>
    obtain ⟨hl, hls⟩ := List.forall_mem_cons.mp hls
    simp [ih hls, hl]

theorem leaves_seq (left right : Sketch) : (seq left right).leaves = left.leaves ++ right.leaves :=
  leaves_foldl_comma right.leaves_leaves left

/-- Joining by commas is associative. -/
theorem seq_assoc (a b c : Sketch) : seq (seq a b) c = seq a (seq b c) := by
  rw [seq, seq, seq, leaves_seq, List.foldl_append]

theorem leaves_ne_nil (e : Sketch) : e.leaves ≠ [] := by
  fun_induction leaves e with
  | case1 left right ihl ihr => simp [ihl]
  | case2 operator left right hne => simp
  | case3 e hnot => simp

theorem seq_ne_missing (e f : Sketch) : seq e f ≠ .missing := by
  rcases List.eq_nil_or_concat f.leaves with hnil | ⟨before, last, hlast⟩
  · exact absurd hnil f.leaves_ne_nil
  · rw [seq, hlast, List.concat_eq_append, List.foldl_concat]
    simp [comma]

/-- A first expression joined with those after it. -/
theorem foldl_seq (a b : Sketch) (es : List Sketch) :
    es.foldl seq (seq a b) = seq a (es.foldl seq b) := by
  induction es generalizing b with
  | nil => rfl
  | cons e es ih => rw [List.foldl_cons, List.foldl_cons, seq_assoc, ih]

/-! ## Statement lists -/

/-- The expression of an expression statement. -/
def statement? : Sketch → Option Sketch
  | .node .expressionStatement [e] => some e
  | _ => none

/-- The label and expression of a return or throw; a return without expression does not count. -/
def completion? : Sketch → Option (Label × Sketch)
  | .node .returnStatement [.missing] => none
  | .node .returnStatement [e] => some (.returnStatement, e)
  | .node .throwStatement [e] => some (.throwStatement, e)
  | _ => none

/-- A statement after which the rest of its list is not reached. -/
def isJump : Sketch → Bool
  | .node label _ =>
    match label.kind with
    | .returnStatement | .throwStatement | .breakStatement | .continueStatement => true
    | _ => false
  | _ => false

variable {sims : List Simplification}

/-- What a statement and the one behind it are fused to. -/
def fuse? (sims : List Simplification) (item next : Sketch) : Option Sketch :=
  match item.statement?, next.statement?, next.completion? with
  | some e, some f, _ =>
    if .sequenceFusion ∈ sims then some (.node .expressionStatement [seq e f]) else none
  | some e, none, some (label, x) =>
    if .completionFusion ∈ sims then some (.node label [seq e x]) else none
  | _, _, _ => none

/-- Puts a statement before a settled list. -/
def push (sims : List Simplification) (item : Sketch) : List Sketch → List Sketch
  | [] => [item]
  | next :: rest =>
    if .dropDead ∈ sims ∧ item.isJump = true then [item]
    else
      match fuse? sims item next with
      | some fused => fused :: rest
      | none => item :: next :: rest

/-- What a statement list comes to. -/
def settle (sims : List Simplification) (items : List Sketch) : List Sketch :=
  items.foldr (push sims) []

theorem settle_append (before after : List Sketch) :
    settle sims (before ++ after) = before.foldr (push sims) (settle sims after) := by
  rw [settle, List.foldr_append]
  rfl

theorem push_jump {jump : Sketch} (hdrop : .dropDead ∈ sims) (hjump : jump.isJump = true)
    (rest : List Sketch) : push sims jump rest = [jump] := by
  cases rest with
  | nil => rfl
  | cons next rest => rw [push, if_pos ⟨hdrop, hjump⟩]

/-- What stands behind a jump may be dropped. -/
theorem settle_dropped {jump : Sketch} (hdrop : .dropDead ∈ sims) (hjump : jump.isJump = true)
    (before after : List Sketch) :
    settle sims (before ++ jump :: after) = settle sims (before ++ [jump]) := by
  rw [settle_append, settle_append]
  simp only [settle, List.foldr_cons, push_jump hdrop hjump]

@[simp] theorem statement?_node (e : Sketch) :
    (Sketch.node .expressionStatement [e]).statement? = some e :=
  rfl

theorem eq_of_statement? {item e : Sketch} (h : item.statement? = some e) :
    item = .node .expressionStatement [e] := by
  unfold statement? at h
  split at h
  · rw [Option.some.inj h]
  · cases h

theorem eq_of_completion? {item e : Sketch} {label : Label}
    (h : item.completion? = some (label, e)) :
    item = .node label [e] ∧
      (label = .returnStatement ∧ e ≠ .missing ∨ label = .throwStatement) := by
  unfold completion? at h
  split at h
  · cases h
  · rename_i hne
    obtain ⟨rfl, rfl⟩ := Prod.mk.inj (Option.some.inj h)
    exact ⟨rfl, .inl ⟨rfl, hne⟩⟩
  · obtain ⟨rfl, rfl⟩ := Prod.mk.inj (Option.some.inj h)
    exact ⟨rfl, .inr rfl⟩
  · cases h

theorem isJump_completion {item e : Sketch} {label : Label}
    (h : item.completion? = some (label, e)) (e' : Sketch) :
    (Sketch.node label [e']).isJump = true := by
  obtain ⟨-, ⟨rfl, -⟩ | rfl⟩ := eq_of_completion? h <;> rfl

/-- A statement before others, in a list that it does not end. -/
theorem push_cons {item next : Sketch} {rest : List Sketch} (h : item.isJump = false) :
    push sims item (next :: rest) =
      match fuse? sims item next with
      | some fused => fused :: rest
      | none => item :: next :: rest := by
  rw [push, if_neg (by simp [h])]

theorem fuse?_statement {e f : Sketch} (hfusion : .sequenceFusion ∈ sims) :
    fuse? sims (.node .expressionStatement [e]) (.node .expressionStatement [f]) =
      some (.node .expressionStatement [seq e f]) :=
  if_pos hfusion

theorem fuse?_completion {next e x : Sketch} {label : Label}
    (hfusion : .completionFusion ∈ sims) (hnext : next.completion? = some (label, x)) :
    fuse? sims (.node .expressionStatement [e]) next = some (.node label [seq e x]) := by
  obtain ⟨rfl, hlabel⟩ := eq_of_completion? hnext
  have hnone : (Sketch.node label [x]).statement? = none := by
    obtain ⟨rfl, -⟩ | rfl := hlabel <;> rfl
  unfold fuse?
  rw [hnext, hnone]
  exact if_pos hfusion

/-- A completion stays one when something is joined to it. -/
theorem completion?_seq {next x : Sketch} {label : Label}
    (h : next.completion? = some (label, x)) (e : Sketch) :
    (Sketch.node label [seq e x]).completion? = some (label, seq e x) := by
  obtain ⟨-, ⟨rfl, -⟩ | rfl⟩ := eq_of_completion? h
  · rw [completion?]
    intro hmissing
    exact seq_ne_missing e x hmissing
  · rfl

/-- An expression statement and the completion behind it may be joined. -/
theorem settle_completed {item next e x : Sketch} {label : Label}
    (hfusion : .completionFusion ∈ sims) (hitem : item.statement? = some e)
    (hnext : next.completion? = some (label, x)) (before after : List Sketch) :
    settle sims (before ++ item :: next :: after) =
      settle sims (before ++ .node label [seq e x] :: after) := by
  have hfuse := fuse?_completion (e := e) hfusion hnext
  have hjump : (Sketch.node .expressionStatement [e]).isJump = false := rfl
  obtain rfl := eq_of_statement? hitem
  rw [settle_append, settle_append]
  congr 1
  show push sims _ (push sims next (settle sims after)) = push sims _ (settle sims after)
  have hnextJump : next.isJump = true := by
    rw [(eq_of_completion? hnext).1]
    exact isJump_completion hnext x
  -- what stands behind the completion is dropped, or stays behind it
  by_cases hdrop : .dropDead ∈ sims
  · rw [push_jump hdrop hnextJump, push_jump hdrop (isJump_completion hnext _), push_cons hjump,
      hfuse]
  · -- a completion is not fused with what stands behind it
    have hkeep : ∀ x', push sims (.node label [x']) (settle sims after) =
        .node label [x'] :: settle sims after := by
      intro x'
      obtain ⟨-, hlabel⟩ := eq_of_completion? hnext
      have hnone : (Sketch.node label [x']).statement? = none := by
        obtain ⟨rfl, -⟩ | rfl := hlabel <;> rfl
      cases settle sims after with
      | nil => rfl
      | cons other rest =>
        rw [push, if_neg (by simp [hdrop])]
        simp [fuse?, hnone]
    rw [hkeep, (eq_of_completion? hnext).1, hkeep, push_cons hjump, ← (eq_of_completion? hnext).1,
      hfuse]

/-- Expression statements are fused with expression statements, with completions, or not at all. -/
theorem fuse?_cases (sims : List Simplification) (next : Sketch) :
    (∃ f, next = .node .expressionStatement [f]) ∨
      (.completionFusion ∈ sims ∧ ∃ label x, next.completion? = some (label, x)) ∨
      ∀ e, fuse? sims (.node .expressionStatement [e]) next = none := by
  cases hnext : next.statement? with
  | some f => exact .inl ⟨f, eq_of_statement? hnext⟩
  | none =>
    cases hcompletion : next.completion? with
    | none => exact .inr (.inr fun e => by simp [fuse?, hnext, hcompletion])
    | some completion =>
      by_cases hfusion : .completionFusion ∈ sims
      · exact .inr (.inl ⟨hfusion, _, _, rfl⟩)
      · exact .inr (.inr fun e => by simp [fuse?, hnext, hcompletion, hfusion])

/-- Two expression statements in a row may be joined. -/
theorem push_push (hfusion : .sequenceFusion ∈ sims) (e f : Sketch) (rest : List Sketch) :
    push sims (.node .expressionStatement [e]) (push sims (.node .expressionStatement [f]) rest) =
      push sims (.node .expressionStatement [seq e f]) rest := by
  have hjump : ∀ x, (Sketch.node .expressionStatement [x]).isJump = false := fun _ => rfl
  cases rest with
  | nil => rw [push, push, push_cons (hjump e), fuse?_statement hfusion]
  | cons next rest =>
    rw [push_cons (hjump f), push_cons (hjump (seq e f))]
    rcases fuse?_cases sims next with ⟨x, rfl⟩ | ⟨hcomplete, label, x, hnext⟩ | hkeep
    · rw [fuse?_statement hfusion, fuse?_statement hfusion]
      dsimp only
      rw [push_cons (hjump e), fuse?_statement hfusion, seq_assoc]
    · rw [fuse?_completion hcomplete hnext, fuse?_completion hcomplete hnext]
      dsimp only
      rw [push_cons (hjump e), fuse?_completion hcomplete (completion?_seq hnext f), seq_assoc]
    · rw [hkeep, hkeep]
      dsimp only
      rw [push_cons (hjump e), fuse?_statement hfusion]

/-- A run of expression statements may be joined. -/
theorem settle_fused (hfusion : .sequenceFusion ∈ sims) (first : Sketch)
    (others after : List Sketch) :
    settle sims ((first :: others).map (fun e => .node .expressionStatement [e]) ++ after) =
      settle sims (.node .expressionStatement [others.foldl seq first] :: after) := by
  induction others generalizing first with
  | nil => rfl
  | cons e others ih =>
    have hrest := congrArg (push sims (.node .expressionStatement [first])) (ih e)
    refine hrest.trans ?_
    rw [List.foldl_cons, foldl_seq]
    exact push_push hfusion first _ _

/-- A list with nothing to drop and nothing to fuse is settled. -/
theorem settle_eq_self {items : List Sketch} (h : items.IsChain fun item next =>
    ¬ (.dropDead ∈ sims ∧ item.isJump = true) ∧ fuse? sims item next = none) :
    settle sims items = items := by
  induction items with
  | nil => rfl
  | cons item rest ih =>
    have hrest : settle sims rest = rest := ih h.tail
    rw [settle, List.foldr_cons, ← settle, hrest]
    cases rest with
    | nil => rfl
    | cons next rest =>
      obtain ⟨hdrop, hfuse⟩ := (List.isChain_cons_cons.mp h).1
      rw [push, if_neg hdrop, hfuse]

/-- Where no simplification works on lists, every list is settled. -/
theorem settle_of_no_list_rule (hdrop : .dropDead ∉ sims) (hsequence : .sequenceFusion ∉ sims)
    (hcompletion : .completionFusion ∉ sims) (items : List Sketch) : settle sims items = items := by
  have hfuse : ∀ item next, fuse? sims item next = none := by
    intro item next
    unfold fuse?
    split <;> simp [hsequence, hcompletion]
  exact settle_eq_self (List.pairwise_of_forall
    fun item next => ⟨fun h => hdrop h.1, hfuse item next⟩).isChain

/-! ## Nodes -/

/-- The value of a fragment or literal. -/
def value? : Sketch → Option Value
  | .constant v => some v
  | .node label _ => label.value?
  | _ => none

/-- An expression that may be missing, then standing for `undefined`. -/
def orUndefined : Sketch → Sketch
  | .missing => .constant .undefined
  | e => e

/-- The branch that a conditional expression with a known test selects. -/
def select? : List Sketch → Option Sketch
  | [test, consequent, alternate] =>
    test.value?.map fun v => if v.toBoolean then consequent else alternate
  | _ => none

/-- A conditional expression, or the branch that is taken. -/
def choose (sims : List Simplification) (test consequent alternate : Sketch) : Sketch :=
  ((if .foldConditional ∈ sims then select? [test, consequent, alternate] else none)).getD
    (.node .conditionalExpression [test, consequent, alternate])

/-- The statement that a block with at most one statement stands for. -/
def flatten? : List Sketch → Option Sketch
  | [.node .block [.list []]] => some (.node .emptyStatement [])
  | [.node .block [.list [statement]]] => some statement
  | _ => none

/-- The statement with a conditional expression that an if statement stands for. -/
def lower? (sims : List Simplification) : List Sketch → Option Sketch
  | [_, .node .returnStatement [.missing], .node .returnStatement [.missing]] => none
  | [test, .node .returnStatement [c], .node .returnStatement [a]] =>
    some (.node .returnStatement [choose sims test c.orUndefined a.orUndefined])
  | [test, .node .throwStatement [c], .node .throwStatement [a]] =>
    some (.node .throwStatement [choose sims test c a])
  | [test, .node .expressionStatement [c], .node .expressionStatement [a]] =>
    some (.node .expressionStatement [choose sims test c a])
  | _ => none

/-- The value of a unary operation on a value. -/
def foldUnary? (operator : Text) : List Sketch → Option Sketch
  | [operand] => do
    let u ← operand.value?
    let v ← evalUnary? operator u
    some (.constant v)
  | _ => none

/-- The value of a binary operation on values. -/
def foldBinary? (operator : Text) : List Sketch → Option Sketch
  | [left, right] => do
    let a ← left.value?
    let b ← right.value?
    let v ← evalBinary? operator a b
    some (.constant v)
  | _ => none

/-- What takes the place of a node whose children are done. -/
def reduce? (sims : List Simplification) (label : Label) (children : List Sketch) :
    Option Sketch :=
  match label with
  | .blockStatement => if .deblock ∈ sims then flatten? children else none
  | .ifStatement => if .ifToConditional ∈ sims then lower? sims children else none
  | .conditionalExpression => if .foldConditional ∈ sims then select? children else none
  | .unaryExpression operator =>
    if .foldConstant ∈ sims ∨ .foldConditional ∈ sims then foldUnary? operator children else none
  | .binaryExpression operator =>
    if .foldConstant ∈ sims then foldBinary? operator children else none
  | _ => none

/-- What a node with finished children comes to. -/
def reduce (sims : List Simplification) (label : Label) (children : List Sketch) : Sketch :=
  (reduce? sims label children).getD (.node label children)

theorem reduce_comma (left right : Sketch) :
    reduce sims (.binaryExpression Sequences.comma) [left, right] = comma left right := by
  have hnone : reduce? sims (.binaryExpression Sequences.comma) [left, right] = none := by
    simp only [reduce?, foldBinary?, Sequences.evalBinary?_comma]
    cases left.value? <;> cases right.value? <;> simp
  rw [reduce, hnone]
  rfl

/-! ## Which simplifications there are -/

section Members

variable {sims' : List Simplification}

theorem fuse?_congr (h : ∀ sim, sim ∈ sims ↔ sim ∈ sims') (item next : Sketch) :
    fuse? sims item next = fuse? sims' item next := by
  simp only [fuse?, h]

theorem settle_congr (h : ∀ sim, sim ∈ sims ↔ sim ∈ sims') (items : List Sketch) :
    settle sims items = settle sims' items := by
  have hpush : push sims = push sims' := by
    funext item rest
    cases rest with
    | nil => rfl
    | cons next rest => simp only [push, h, fuse?_congr h]
  rw [settle, settle, hpush]

theorem reduce_congr (h : ∀ sim, sim ∈ sims ↔ sim ∈ sims') (label : Label)
    (children : List Sketch) : reduce sims label children = reduce sims' label children := by
  have hchoose : choose sims = choose sims' := by
    funext test consequent alternate
    simp only [choose, h]
  have hlower : lower? sims = lower? sims' := by
    funext children
    simp only [lower?, hchoose]
  simp only [reduce, reduce?, h, hlower]

end Members

end Sketch

end ScriptSimplifier
