import ScriptSimplifier.Proofs.Source.Grammar

/-!
# Every expression stands for one tree

The grammar of expressions is read by operator precedence: what is still open waits on a stack, and
a symbol that binds more loosely than what waits closes it first.  Every derivation drives the
reader to the tree it is about (`run_derives`), so no sequence of symbols stands for two trees
(`Derives.unique`).
-/

namespace ScriptSimplifier

namespace Grammar

/-! ## The reader -/

/-- What waits for an expression. -/
inductive Pending where
  | unary (op : Text)
  | binary (op : Text) (left : Tree)
  | consequent (test : Tree)
  | alternate (test consequent : Tree)
  | assignment (binding : Tree)
  | group
  | arguments (callee : Tree) (done : List Tree)

/-- What a symbol does behind an expression. -/
inductive Role where
  | opening
  | closing
  | point
  | equals
  | question
  | colon
  | comma
  | operator (op : Text)
  | none
  deriving DecidableEq

/-- The rank of a binary operator. -/
def rank (op : Text) : Nat := ladder.findIdx (·.contains op)

/-- What a symbol does behind an expression. -/
def role (s : Symbol) : Role :=
  if s = sign "(" then .opening
  else if s = sign ")" then .closing
  else if s = sign "." then .point
  else if s = sign "=" then .equals
  else if s = sign "?" then .question
  else if s = sign ":" then .colon
  else if s = sign "," then .comma
  else
    match s with
    | .word t | .sign t => if ladder.any (·.contains t) then .operator t else .none
    | _ => .none

/-- The least rank of what a symbol takes to its left; what closes or separates takes all. -/
def Role.takes : Role → Nat
  | .opening | .point | .equals => leftHand
  | .question => disjunction
  | .operator op => rank op
  | _ => sequence

/-- What the next symbol takes to its left; the end takes all. -/
def takes (symbols : List Symbol) : Nat := (symbols.head?.map fun s => (role s).takes).getD sequence

/-- The least rank of what is waited for. -/
def Pending.needs : Pending → Nat
  | .unary _ => Grammar.unary
  | .binary op _ => rank op + 1
  | .consequent _ | .alternate _ _ | .assignment _ | .arguments _ _ => Grammar.assignment
  | .group => sequence

/-- The rank and the tree of what waited for an expression and got one; some things have to be
closed by a symbol. -/
def Pending.complete? (t : Tree) : Pending → Option (Nat × Tree)
  | .unary op => some (Grammar.unary, .node (.unaryExpression op) [t])
  | .binary op left => some (rank op, .node (.binaryExpression op) [left, t])
  | .alternate first second =>
    some (Grammar.conditional, .node .conditionalExpression [first, second, t])
  | .assignment target => some (Grammar.assignment, .node .assignmentExpression [target, t])
  | _ => none

/-- Completes what waits for a tree, as long as its rank is at least the given one. -/
def settle (least : Nat) (t : Tree) : List Pending → Tree × List Pending
  | [] => (t, [])
  | pending :: stack =>
    match pending.complete? t with
    | some (rank, u) => if least ≤ rank then settle least u stack else (t, pending :: stack)
    | none => (t, pending :: stack)

/-- What the reader has seen last: what needs an operand, the point behind an object, or an
expression. -/
inductive State where
  | operand (stack : List Pending)
  | property (object : Tree) (stack : List Pending)
  | after (t : Tree) (stack : List Pending)

/-- The tree that a word stands for. -/
def wordTree (name : Text) : Tree :=
  if name = Text.ofString "true" then .node (.booleanLiteral true) []
  else if name = Text.ofString "false" then .node (.booleanLiteral false) []
  else if name = Text.ofString "null" then .node .nullLiteral []
  else .node (.identifierExpression name) []

/-- Reads a symbol where an operand has to stand.  A call without arguments ends there. -/
def stepOperand (s : Symbol) (stack : List Pending) : Option State :=
  match unaryOperators.find? fun op => operator op = s with
  | some op => some (.operand (.unary op :: stack))
  | none =>
    match s, stack with
    | .number x, _ => some (.after (.node (.numericLiteral x) []) stack)
    | .string t, _ => some (.after (.node (.stringLiteral t) []) stack)
    | .word name, _ => some (.after (wordTree name) stack)
    | .sign _, _ =>
      match role s, stack with
      | .opening, _ => some (.operand (.group :: stack))
      | .closing, .arguments callee [] :: outer =>
        some (.after (.node .callExpression [callee, .list []]) outer)
      | _, _ => none

/-- Reads a symbol behind an expression, when everything is completed that binds tighter. -/
def stepAfter (r : Role) (t : Tree) (stack : List Pending) : Option State :=
  match r, stack with
  | .opening, _ => some (.operand (.arguments t [] :: stack))
  | .point, _ => some (.property t stack)
  | .equals, _ => some (.operand (.assignment t :: stack))
  | .question, _ => some (.operand (.consequent t :: stack))
  | .colon, .consequent test :: outer => some (.operand (.alternate test t :: outer))
  | .closing, .group :: outer => some (.after t outer)
  | .closing, .arguments callee done :: outer =>
    some (.after (.node .callExpression [callee, .list (done ++ [t])]) outer)
  | .comma, .arguments callee done :: outer =>
    some (.operand (.arguments callee (done ++ [t]) :: outer))
  | .comma, _ => some (.operand (.binary "," t :: stack))
  | .operator op, _ => some (.operand (.binary op t :: stack))
  | _, _ => none

/-- Reads a symbol. -/
def step (s : Symbol) : State → Option State
  | .operand stack => stepOperand s stack
  | .property object stack =>
    match s with
    | .word name => some (.after (.node (.staticMemberExpression name) [object]) stack)
    | _ => none
  | .after t stack =>
    let settled := settle (role s).takes t stack
    stepAfter (role s) settled.1 settled.2

/-- Reads symbols to the end. -/
def run : State → List Symbol → Option Tree
  | .after t stack, [] =>
    match settle sequence t stack with
    | (u, []) => some u
    | _ => none
  | _, [] => none
  | state, s :: rest => (step s state).bind (run · rest)

/-! ## Facts about the tables -/

/-- Whether an operator has a rank, and does behind an expression what an operator does. -/
theorem ladder_spec {r : Nat} {op : Text} (h : ∃ ops, ladder[r]? = some ops ∧ op ∈ ops) :
    rank op = r ∧ (r = 0 ∨ 3 ≤ r ∧ r < 13) ∧ (role (operator op)).takes = r ∧
      role (operator op) = if op = Text.ofString "," then .comma else .operator op := by
  have hall : (ladder.zipIdx.all fun (ops, r) => ops.all fun op =>
      decide (rank op = r ∧ (r = 0 ∨ 3 ≤ r ∧ r < 13) ∧ (role (operator op)).takes = r ∧
        role (operator op) = if op = Text.ofString "," then .comma else .operator op)) = true := by
    decide
  obtain ⟨ops, hops, hmem⟩ := h
  have hentry := List.all_eq_true.mp hall (ops, r) (List.mem_zipIdx_iff_getElem?.mpr hops)
  exact of_decide_eq_true (List.all_eq_true.mp hentry op hmem)

theorem role_operator {s : Symbol} {op : Text} (h : role s = .operator op) :
    ∃ r : Nat, ∃ ops, ladder[r]? = some ops ∧ op ∈ ops := by
  have hany : ladder.any (·.contains op) = true := by
    rw [role.eq_def] at h
    repeat' split at h
    all_goals first
      | rename_i hany; obtain rfl := Role.operator.inj h; exact hany
      | exact absurd h (by simp)
  obtain ⟨ops, hops, hmem⟩ := List.any_eq_true.mp hany
  obtain ⟨r, hr⟩ := List.mem_iff_getElem?.mp hops
  exact ⟨r, ops, hr, List.contains_iff_mem.mp hmem⟩

/-- What takes a conditional to its left takes everything. -/
theorem takes_loose {symbols : List Symbol} (h : takes symbols ≤ conditional) :
    takes symbols = sequence := by
  cases symbols with
  | nil => rfl
  | cons s rest =>
    have htakes : takes (s :: rest) = (role s).takes := rfl
    rw [htakes] at h ⊢
    cases hrole : role s with
    | operator op =>
      rw [hrole] at h
      obtain ⟨r, hr⟩ := role_operator hrole
      obtain ⟨hrank, hranks, -⟩ := ladder_spec hr
      have hconditional : conditional = 2 := rfl
      show rank op = 0
      replace h : rank op ≤ conditional := h
      omega
    | opening | point | equals | question => rw [hrole] at h; exact absurd h (by decide)
    | _ => rfl

/-- A word that is not reserved is no operator. -/
theorem find?_unary_word {name : Text} (h : name ∉ reserved) :
    (unaryOperators.find? fun op => operator op = .word name) = none := by
  have hall : ∀ op ∈ unaryOperators,
      operator op = .sign op ∨ op ∈ reserved ∧ operator op = .word op := by
    decide
  refine List.find?_eq_none.mpr fun op hop => ?_
  rcases hall op hop with hsign | ⟨hreserved, hword⟩
  · simp [hsign]
  · simp only [hword, decide_eq_true_eq, Symbol.word.injEq]
    rintro rfl
    exact h hreserved

/-- The symbol of a unary operator stands for it. -/
theorem find?_unary {op : Text} (h : op ∈ unaryOperators) :
    (unaryOperators.find? fun op' => operator op' = operator op) = some op := by
  have hall : ∀ op ∈ unaryOperators,
      (unaryOperators.find? fun op' => operator op' = operator op) = some op := by
    decide
  exact hall op h

theorem wordTree_name {name : Text} (h : name ∉ reserved) :
    wordTree name = .node (.identifierExpression name) [] := by
  have hne : ∀ word ∈ reserved, name ≠ word := by
    rintro word hword rfl
    exact h hword
  rw [wordTree, if_neg (hne _ (by decide)), if_neg (hne _ (by decide)), if_neg (hne _ (by decide))]

/-! ## Completing -/

/-- What waits needs no more than a rank. -/
def Admits (least : Nat) : List Pending → Prop
  | [] => True
  | pending :: _ => pending.needs ≤ least

theorem Admits.mono {least more : Nat} (h : least ≤ more) {stack : List Pending}
    (hstack : Admits least stack) : Admits more stack := by
  cases stack with
  | nil => trivial
  | cons pending stack => exact Nat.le_trans hstack h

/-- Behind an expression of a rank, a symbol of the same construct completes nothing that waits for
the construct. -/
theorem settle_admits {least own : Nat} {stack : List Pending} (hstack : Admits own stack)
    (hle : own ≤ least) (hloose : 1 ≤ own → 3 ≤ least) (htight : 13 ≤ own → 14 ≤ least) (t : Tree) :
    settle least t stack = (t, stack) := by
  cases stack with
  | nil => rfl
  | cons pending stack =>
    have hneeds : pending.needs ≤ own := hstack
    rw [settle]
    cases hcomplete : pending.complete? t with
    | none => rfl
    | some completed =>
      -- what would be completed has a rank below what the symbol takes
      have hlow : completed.1 < least := by
        cases pending with
        | unary op =>
          obtain rfl := Option.some.inj hcomplete
          have hunary : (13 : Nat) ≤ own := hneeds
          show (13 : Nat) < least
          omega
        | binary op left =>
          obtain rfl := Option.some.inj hcomplete
          have hrank : rank op + 1 ≤ own := hneeds
          show rank op < least
          omega
        | alternate test second =>
          obtain rfl := Option.some.inj hcomplete
          have hone : (1 : Nat) ≤ own := hneeds
          show (2 : Nat) < least
          omega
        | assignment target =>
          obtain rfl := Option.some.inj hcomplete
          have hone : (1 : Nat) ≤ own := hneeds
          show (1 : Nat) < least
          omega
        | _ => simp [Pending.complete?] at hcomplete
      simp only [if_neg (Nat.not_le.mpr hlow)]

/-- What waits is completed before a symbol that takes it to its left. -/
theorem run_complete {pending : Pending} {t u : Tree} {r : Nat}
    (hcomplete : pending.complete? t = some (r, u)) {rest : List Symbol} (htakes : takes rest ≤ r)
    (stack : List Pending) : run (.after t (pending :: stack)) rest = run (.after u stack) rest := by
  have hsettle : settle (takes rest) t (pending :: stack) = settle (takes rest) u stack := by
    rw [settle, hcomplete]
    exact if_pos htakes
  cases rest with
  | nil =>
    show (match settle sequence t (pending :: stack) with | (u, []) => some u | _ => none) = _
    rw [show settle sequence t (pending :: stack) = settle sequence u stack from hsettle]
    rfl
  | cons s rest =>
    have hstep : step s (.after t (pending :: stack)) = step s (.after u stack) := by
      show stepAfter (role s) (settle (role s).takes t (pending :: stack)).1
        (settle (role s).takes t (pending :: stack)).2 = _
      rw [show settle (role s).takes t (pending :: stack) = settle (role s).takes u stack
        from hsettle]
      rfl
    rw [run, run, hstep]

/-! ## Derivations -/

/-- A symbol behind the first part of its own construct. -/
theorem run_after {own : Nat} {stack : List Pending} (hstack : Admits own stack) {s : Symbol}
    (hle : own ≤ (role s).takes) (hloose : 1 ≤ own → 3 ≤ (role s).takes)
    (htight : 13 ≤ own → 14 ≤ (role s).takes) (t : Tree) (rest : List Symbol) :
    run (.after t stack) (s :: rest) = (stepAfter (role s) t stack).bind (run · rest) := by
  show (stepAfter (role s) (settle (role s).takes t stack).1
    (settle (role s).takes t stack).2).bind _ = _
  rw [settle_admits hstack hle hloose htight]

/-- The arguments of a call, the first of them given apart. -/
theorem run_arguments {arguments : List (List Symbol × Tree)} {a : List Symbol × Tree}
    (ih : ∀ b ∈ a :: arguments, ∀ stack, Admits assignment stack → ∀ rest,
      takes rest ≤ assignment → run (.operand stack) (b.1 ++ rest) = run (.after b.2 stack) rest)
    (callee : Tree) (done : List Tree) (stack : List Pending) (rest : List Symbol) :
    run (.operand (.arguments callee done :: stack))
        ([sign ","].intercalate ((a :: arguments).map (·.1)) ++ sign ")" :: rest) =
      run (.after (.node .callExpression [callee, .list (done ++ (a :: arguments).map (·.2))]) stack)
        rest := by
  obtain ⟨hhere, hrest⟩ := List.forall_mem_cons.mp ih
  have hadmits : Admits assignment (.arguments callee done :: stack) := Nat.le_refl _
  induction arguments generalizing a done with
  | nil =>
    rw [List.map_singleton, List.intercalate_singleton,
      hhere _ hadmits (sign ")" :: rest) (Nat.zero_le _)]
    rfl
  | cons b arguments ihmore =>
    obtain ⟨hb, hmore⟩ := List.forall_mem_cons.mp hrest
    have hsplit : [sign ","].intercalate ((a :: b :: arguments).map (·.1)) ++ sign ")" :: rest =
        a.1 ++ sign "," ::
          ([sign ","].intercalate ((b :: arguments).map (·.1)) ++ sign ")" :: rest) := by
      simp [List.intercalate_cons_cons]
    rw [hsplit, hhere _ hadmits _ (Nat.zero_le _)]
    have hcomma := ihmore hrest (done ++ [a.2]) hb hmore (Nat.le_refl _)
    rw [List.append_assoc, List.singleton_append] at hcomma
    exact hcomma

/-- A binary operator waits for its right operand.  A comma that is an operator does not stand among
the arguments of a call. -/
theorem stepAfter_operator {r : Nat} {op : Text} (hop : ∃ ops, ladder[r]? = some ops ∧ op ∈ ops)
    {stack : List Pending} (hstack : Admits r stack) (t : Tree) :
    stepAfter (role (operator op)) t stack = some (.operand (.binary op t :: stack)) := by
  obtain ⟨hrank, -, -, hrole⟩ := ladder_spec hop
  rw [hrole]
  by_cases hcomma : op = Text.ofString ","
  · subst hcomma
    rw [if_pos rfl]
    obtain rfl : r = 0 := hrank.symm
    cases stack with
    | nil => rfl
    | cons pending stack =>
      cases pending with
      | arguments callee done => exact absurd (show 1 ≤ 0 from hstack) (by decide)
      | _ => rfl
  · rw [if_neg hcomma]
    rfl

/-- From an operand on, the reader takes an expression as a whole, provided that neither what waits
for it nor what follows it takes a part of it. -/
theorem run_derives {r : Nat} {symbols : List Symbol} {t : Tree} (h : Derives r symbols t)
    (stack : List Pending) (hstack : Admits r stack) (rest : List Symbol) (hrest : takes rest ≤ r) :
    run (.operand stack) (symbols ++ rest) = run (.after t stack) rest := by
  induction h generalizing stack rest with
  | identifier hname =>
    show (stepOperand _ stack).bind _ = _
    rw [stepOperand, find?_unary_word hname]
    simp [wordTree_name hname]
  | number x => rfl
  | string t => rfl
  | boolean b => cases b <;> rfl
  | null => rfl
  | group hinner ih =>
    rw [List.append_assoc, List.cons_append]
    exact ih (.group :: stack) (Nat.le_refl _) (sign ")" :: rest) (Nat.le_refl _)
  | @call symbols callee arguments hcallee harguments ihcallee iharguments =>
    have hsplit : symbols ++ sign "(" :: [sign ","].intercalate (arguments.map (·.1)) ++ [sign ")"] ++
        rest = symbols ++ sign "(" ::
          ([sign ","].intercalate (arguments.map (·.1)) ++ sign ")" :: rest) := by
      simp
    rw [hsplit, ihcallee stack hstack _ (Nat.le_refl _),
      run_after hstack (Nat.le_refl _) (fun _ => by decide) (fun _ => by decide)]
    cases arguments with
    | nil => rfl
    | cons a arguments => exact run_arguments iharguments callee [] stack rest
  | member hobject ih =>
    rw [List.append_assoc, ih stack hstack _ (Nat.le_refl _)]
    exact run_after hstack (Nat.le_refl _) (fun _ => by decide) (fun _ => by decide) _ _
  | @unary symbols t op hop hoperand ih =>
    have hstep : stepOperand (operator op) stack = some (.operand (.unary op :: stack)) := by
      rw [stepOperand.eq_def, find?_unary hop]
    show (stepOperand (operator op) stack).bind _ = _
    rw [hstep]
    exact (ih (.unary op :: stack) (Nat.le_refl _) rest hrest).trans
      (run_complete rfl hrest stack)
  | @binary r before after left right op hop hleft hright ihleft ihright =>
    obtain ⟨hrank, hranks, htakes, hrole⟩ := ladder_spec hop
    have hneeds : Admits (r + 1) (.binary op left :: stack) := Nat.le_of_eq (by rw [← hrank]; rfl)
    have hleftTakes : takes (operator op :: (after ++ rest)) ≤ r := Nat.le_of_eq htakes
    rw [List.append_assoc, List.cons_append, ihleft stack hstack _ hleftTakes,
      run_after hstack (Nat.le_of_eq htakes.symm) (fun _ => by omega) (fun _ => by omega),
      stepAfter_operator hop hstack]
    refine (ihright _ hneeds rest (Nat.le_succ_of_le hrest)).trans (run_complete ?_ hrest stack)
    rw [← hrank]
    rfl
  | @conditional first second third test consequent alternate htest hconsequent halternate ihtest
      ihconsequent ihalternate =>
    have hloose : takes rest ≤ assignment := by
      rw [takes_loose hrest]
      decide
    rw [List.append_assoc, List.append_assoc, List.cons_append, List.cons_append,
      ihtest stack (hstack.mono (by decide)) _ (Nat.le_refl _),
      run_after hstack (by decide) (fun _ => by decide) (fun h => absurd h (by decide))]
    refine (ihconsequent (.consequent test :: stack) (Nat.le_refl _) _ (Nat.zero_le _)).trans ?_
    exact (ihalternate (.alternate test consequent :: stack) (Nat.le_refl _) rest hloose).trans
      (run_complete rfl hrest stack)
  | @assignment before after binding value hbinding hvalue ihbinding ihvalue =>
    rw [List.append_assoc, List.cons_append,
      ihbinding stack (hstack.mono (by decide)) _ (Nat.le_refl _),
      run_after hstack (by decide) (fun _ => by decide) (fun h => absurd h (by decide))]
    exact (ihvalue (.assignment binding :: stack) (Nat.le_refl _) rest hrest).trans
      (run_complete rfl hrest stack)
  | tighter htight ih =>
    exact ih stack (hstack.mono (Nat.le_succ _)) rest (Nat.le_succ_of_le hrest)

/-- Symbols that are an expression stand for one tree only. -/
theorem Derives.unique {symbols : List Symbol} {t u : Tree} (ht : Derives sequence symbols t)
    (hu : Derives sequence symbols u) : t = u := by
  have hread : ∀ {t}, Derives sequence symbols t → run (.operand []) symbols = some t := by
    intro t ht
    have hrun := run_derives ht [] trivial [] (Nat.le_refl _)
    rw [List.append_nil] at hrun
    exact hrun
  exact Option.some.inj ((hread ht).symm.trans (hread hu))

end Grammar

end ScriptSimplifier
