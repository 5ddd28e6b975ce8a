import Mathlib.Data.Option.Basic
import ScriptSimplifier.Console.Basic
import ScriptSimplifier.Proofs.Pass.Validity
import ScriptSimplifier.Proofs.SExpression.RoundTrip
import ScriptSimplifier.Proofs.Syntax.Listing

/-!
# Lines at the console

The tree under work stems from the tree that was entered: it is what the passes have made of it in
one session (`Subject.Stems`).  Every line keeps this, is answered without a fault, and leaves the
console as it was if it fails for another reason than an error of a pass (`Console.answered_eval`).
-/

namespace ScriptSimplifier

open Workspace

/-! ## Valid trees -/

/-- What is well-formed and valid is well-formed in full. -/
theorem Tree.isWellFormed_full (t : Tree) (h : t.isWellFormed .loose = true)
    (hvalid : t.invalid? = none) : t.isWellFormed .full = true := by
  rw [Tree.isWellFormed, Bool.and_eq_true] at h
  have hnode : ∀ label children, Tree.nodeWellFormed .loose label children = true →
      label.hasOperator = true ∧ children.length = label.fields.length := by
    intro label children hnode
    obtain ⟨hoperator, hlength, -⟩ := nodeWellFormed_iff.mp hnode
    exact ⟨hoperator rfl, hlength⟩
  have hshaped : t.isShaped = true := by
    rw [Tree.isShaped, Bool.and_eq_true]
    exact ⟨h.1, t.allNodes_mono (fun label children h => beq_iff_eq.mpr (hnode _ _ h).2) h.2⟩
  have hoperators : t.hasOperators = true :=
    t.allNodes_mono (fun label children h => (hnode _ _ h).1) h.2
  exact (isWellFormed_iff rfl).mpr ⟨hshaped, fun _ => hoperators, hvalid⟩

theorem source?_isSome_of_full {t : Tree} (h : t.isWellFormed .full = true) :
    t.source?.isSome = true := by
  have hloose := isWellFormed_loose rfl h
  rw [Tree.isWellFormed, Bool.and_eq_true] at hloose
  exact source?_isSome hloose.2

/-! ## The tree under work -/

/-- The valid tree that a text spells, if it spells one. -/
def Tree.accepted? (text : Text) : Option Tree :=
  (Tree.read text).toOption.filter fun t => t.invalid?.isNone

/-- The tree that was entered as `t` is under work: passes have worked on it in one session. -/
structure Subject.Stems (s : Subject) (t : Tree) : Prop where
  writable : t.isWritable = true
  valid : t.invalid? = none
  entered : s.entered = t.toSExpression
  session : ∃ root, s.root = some root ∧ Session t root s.workspace

namespace Subject

/-- The tree that was entered, in a workspace of its own. -/
def planted (t : Tree) : Subject :=
  { entered := t.toSExpression, workspace := .ofStore (Store.empty.plant t).2,
    root := (Store.empty.plant t).1 }

variable {s : Subject} {t : Tree}

theorem ofText_eq (text : Text) :
    (∃ t, Tree.accepted? text = some t ∧ ofText text = .ok (planted t)) ∨
      Tree.accepted? text = none ∧
        ((∃ e, ofText text = .error (.unreadable e)) ∨ ∃ e, ofText text = .error (.invalid e)) := by
  rw [Tree.accepted?, ofText]
  cases Tree.read text with
  | error e => exact .inr ⟨rfl, .inl ⟨e, rfl⟩⟩
  | ok t =>
    cases hinvalid : t.invalid? with
    | some invalid =>
      exact .inr ⟨by simp [Except.toOption, hinvalid], .inr ⟨invalid, by simp [hinvalid]⟩⟩
    | none => exact .inl ⟨t, by simp [Except.toOption, hinvalid], by simp [hinvalid]; rfl⟩

theorem stems_planted (hwritable : t.isWritable = true) (hvalid : t.invalid? = none) :
    (planted t).Stems t := by
  refine ⟨hwritable, hvalid, rfl, ?_⟩
  rw [Tree.isWritable, Bool.and_eq_true] at hwritable
  cases t with
  | missing | list _ => cases hwritable.1
  | node label children => exact ⟨_, rfl, .planted rfl⟩

theorem stems_accepted {text : Text} (h : Tree.accepted? text = some t) : (planted t).Stems t := by
  rw [Tree.accepted?, Option.filter_eq_some_iff] at h
  cases hread : Tree.read text with
  | error e => simp [hread, Except.toOption] at h
  | ok u =>
    obtain rfl : u = t := by simpa [hread, Except.toOption] using h.1
    exact stems_planted (read_writable hread) (Option.isNone_iff_eq_none.mp h.2)

theorem tree_planted (h : t.isWellFormed .full = true) : (planted t).tree = t := by
  cases t with
  | missing | list _ => simp [Tree.isWellFormed, Tree.kind?] at h
  | node label children => exact (intact_planted h rfl).2

/-! ### What is so of the tree under work -/

theorem Stems.wellFormed (h : s.Stems t) : t.isWellFormed .full = true :=
  t.isWellFormed_full (t.isWellFormed_of_isWritable h.writable) h.valid

theorem Stems.read (h : s.Stems t) : Tree.read s.entered = .ok t := by
  rw [h.entered]
  exact read_write h.writable none

theorem Stems.ofText (h : s.Stems t) : Subject.ofText s.entered = .ok (planted t) := by
  rw [Subject.ofText, h.read]
  dsimp only
  rw [h.valid]
  rfl

theorem Stems.intact (h : s.Stems t) :
    ∃ root, s.root = some root ∧ s.workspace.Intact .full root := by
  obtain ⟨root, hroot, hsession⟩ := h.session
  exact ⟨root, hroot, hsession.intact h.wellFormed⟩

theorem Stems.tree_wellFormed (h : s.Stems t) : s.tree.isWellFormed .full = true := by
  obtain ⟨root, hroot, hintact⟩ := h.intact
  rw [tree, hroot]
  exact hintact.wellFormed

theorem Stems.tree_valid (h : s.Stems t) : s.tree.invalid? = none :=
  ((isWellFormed_iff rfl).mp h.tree_wellFormed).2.2

theorem Stems.sourceNotice (h : s.Stems t) : (Console.sourceNotice s).isSome = true := by
  rw [Console.sourceNotice, Option.isSome_map]
  exact source?_isSome_of_full h.tree_wellFormed

theorem Stems.entries?_isSome (h : s.Stems t) : s.tree.entries?.isSome = true :=
  ScriptSimplifier.entries?_isSome h.tree_wellFormed

theorem Stems.compareSources?_isSome (h : s.Stems t) (m : Marking) :
    (t.compareSources? m s.tree).isSome = true := by
  obtain ⟨before, hbefore⟩ := Option.isSome_iff_exists.mp (source?_isSome_of_full h.wellFormed)
  obtain ⟨after, hafter⟩ := Option.isSome_iff_exists.mp (source?_isSome_of_full h.tree_wellFormed)
  simp [Tree.compareSources?, hbefore, hafter]

/-- What passes make of the tree stems from the same tree. -/
theorem Stems.worked (h : s.Stems t) {workspace : Workspace} {stats : Option Stats}
    (hworked : ∀ root, s.root = some root → Session t root s.workspace →
      Session t root workspace) : Stems { s with workspace, stats } t := by
  obtain ⟨root, hroot, hsession⟩ := h.session
  exact ⟨h.writable, h.valid, h.entered, root, hroot, hworked root hroot hsession⟩

end Subject

/-! ## Passes -/

section Passes

variable {t : Tree} {root : Ref} {w : Workspace}

/-- A pass over a valid tree that is not to raise its errors ends without a fault. -/
theorem Reports.no_fault {σ : Type} {pass : Pass σ} {sims : List Simplification} {report : Report}
    (h : Reports pass sims root w report) (hraises : pass.raises = false) (fault : Fault) :
    report ≠ .fault fault := by
  cases h <;> simp [Pass.failure, hraises]

theorem Report.after_ne_fault {report : Report} (h : ∀ fault, report ≠ .fault fault)
    (earlier : Stats) (fault : Fault) : report.after earlier ≠ .fault fault := by
  cases report with
  | fault cause => exact absurd rfl (h cause)
  | _ => simp [Report.after]

theorem runPasses_no_fault (ht : t.isWellFormed .full = true) (hw : Session t root w)
    {passes : List (Pass Unit)} (hpasses : ∀ pass ∈ passes, pass.raises = false ∧
      ∃ sims : List Simplification, pass.rules = sims.map Simplification.rule) (fuel : Nat)
    (total : Stats) (fault : Fault) :
    (runPasses fuel (some root) passes total w).2 ≠ .fault fault := by
  induction passes generalizing w total with
  | nil => simp [runPasses]
  | cons pass rest ih =>
    obtain ⟨⟨hraises, sims, hrules⟩, hrest⟩ := List.forall_mem_cons.mp hpasses
    have hreport := process_reports hrules (hw.intact ht) () fuel
    rw [runPasses]
    split
    · exact ih (.passed fuel () hrules hw) hrest _
    · exact Report.after_ne_fault (hreport.no_fault hraises) total fault

theorem optimize_no_fault (ht : t.isWellFormed .full = true) (hw : Session t root w)
    {o : Options} (hraises : o.raises = false) (fuel : Nat) (fault : Fault) :
    (o.optimize fuel w (some root)).2 ≠ .fault fault := by
  refine runPasses_no_fault ht hw (fun pass hpass => ?_) fuel {} fault
  obtain ⟨⟨phase, i⟩, _, rfl⟩ := List.mem_map.mp hpass
  exact ⟨hraises, phase, rfl⟩

end Passes

/-! ## Answers -/

namespace Console

/-- What is under work stems from a tree, if there is one. -/
def Keeps (c : Console) (last : Option Tree) : Prop := Option.Rel Subject.Stems c.subject last

/-- A line is answered without a fault, what is under work afterwards stems from a tree, and an
error other than that of a pass leaves the console as it was. -/
structure Answered (c : Console) (last : Option Tree) (r : Reply) : Prop where
  options : r.console.options = c.options
  keeps : r.console.Keeps last
  no_fault : ∀ fault, r.outcome ≠ .failed (.fault fault)
  unchanged : ∀ error, r.outcome = .failed error → (∀ e, error ≠ .pass e) → r.console = c

variable {c : Console} {s : Subject} {t : Tree} {last : Option Tree}

theorem answered_refuse (hc : c.Keeps last) {error : ConsoleError}
    (h : ∀ fault, error ≠ .fault fault) : c.Answered last (c.refuse error) :=
  ⟨rfl, hc, fun fault hfault => h fault (by simpa [refuse] using hfault), fun _ _ _ => rfl⟩

theorem answered_same (hc : c.Keeps last) (output : Text) :
    c.Answered last { console := c, output } :=
  ⟨rfl, hc, by simp, by simp⟩

theorem answered_new (c : Console) (hs : s.Stems t) (output : Text) :
    c.Answered (some t) { console := { c with subject := some s }, output } :=
  ⟨rfl, .some hs, by simp, by simp⟩

/-! ### Passes -/

variable {workspace : Workspace}

/-- A pass has worked on the tree. -/
def Worked (s : Subject) (workspace : Workspace) (t : Tree) : Prop :=
  ∀ stats, Subject.Stems { s with workspace, stats } t

theorem settle_eq (hworked : Worked s workspace t) (c : Console) (stats : Stats) :
    ∃ output, c.settle s workspace stats =
      { console := { c with subject := some { s with workspace, stats := some stats } },
        output } := by
  obtain ⟨text, htext⟩ := Option.isSome_iff_exists.mp (hworked (some stats)).sourceNotice
  rw [settle, htext]
  split <;> exact ⟨_, rfl⟩

theorem answered_reportOf (hworked : Worked s workspace t) {report : Report}
    (hreport : ∀ fault, report ≠ .fault fault) :
    c.Answered (some t) (c.reportOf s workspace report) := by
  cases report with
  | done stats | unfinished stats =>
    obtain ⟨output, hsettle⟩ := settle_eq hworked c stats
    rw [reportOf, hsettle]
    exact answered_new c (hworked (some stats)) output
  | failed stats error =>
    obtain ⟨output, hsettle⟩ := settle_eq hworked c stats
    rw [reportOf, hsettle]
    refine ⟨rfl, .some (hworked (some stats)), by simp, fun other hother hpass => ?_⟩
    exact absurd (by simpa using hother.symm) (hpass error)
  | fault cause => exact absurd rfl (hreport cause)

theorem answered_simplify (hraises : c.options.raises = false) (hs : s.Stems t) (name : Text)
    (simplifications : List Simplification) :
    c.Answered (some t) (c.simplify s name simplifications) := by
  obtain ⟨root, hroot, hsession⟩ := hs.session
  have hrules : (c.options.pass name simplifications).rules =
      simplifications.map Simplification.rule := rfl
  have hreport := process_reports hrules (hsession.intact hs.wellFormed) () c.patience
  rw [simplify, hroot]
  refine answered_reportOf (fun stats => hs.worked fun other hother h => ?_)
    (hreport.no_fault hraises)
  obtain rfl := Option.some.inj (hroot.symm.trans hother)
  exact .passed c.patience () hrules h

theorem answered_optimize (hraises : c.options.raises = false) (hs : s.Stems t) :
    c.Answered (some t) (c.serve s .optimize) := by
  obtain ⟨root, hroot, hsession⟩ := hs.session
  rw [serve, hroot]
  refine answered_reportOf (fun stats => hs.worked fun other hother h => ?_)
    (optimize_no_fault hs.wellFormed hsession hraises c.patience)
  obtain rfl := Option.some.inj (hroot.symm.trans hother)
  exact h.optimize c.options c.patience

/-! ### Requests and commands -/

/-- The answer to starting again with the tree that was entered. -/
theorem serve_reset (hs : s.Stems t) :
    c.serve s .reset = { console := { c with subject := some (.planted t) } } := by
  rw [serve, enter, hs.ofText]
  rfl

/-- The answer to comparing the tree with the one that was entered. -/
theorem serve_compare (hs : s.Stems t) :
    ∃ output, c.serve s .compare = { console := c, output } := by
  obtain ⟨⟨text, changed⟩, hcompare⟩ :=
    Option.isSome_iff_exists.mp (hs.compareSources?_isSome .colours)
  rw [serve, hs.read]
  dsimp only
  rw [hcompare]
  exact ⟨_, rfl⟩

theorem answered_serve (hraises : c.options.raises = false) (hc : c.Keeps (some t))
    (hs : s.Stems t) (request : Request) : c.Answered (some t) (c.serve s request) := by
  cases request with
  | phaseOne => exact answered_simplify hraises hs _ _
  | phaseTwo => exact answered_simplify hraises hs _ _
  | optimize => exact answered_optimize hraises hs
  | simplify arguments =>
    match arguments with
    | [name] =>
      rw [serve]
      split
      · exact answered_simplify hraises hs _ _
      · exact answered_refuse hc (by simp)
    | [] | _ :: _ :: _ => exact answered_refuse hc (by simp)
  | draw =>
    obtain ⟨entries, hentries⟩ := Option.isSome_iff_exists.mp hs.entries?_isSome
    rw [serve, hentries]
    exact answered_same hc _
  | source =>
    obtain ⟨text, htext⟩ := Option.isSome_iff_exists.mp hs.sourceNotice
    rw [serve, htext]
    exact answered_same hc _
  | sExpression => exact answered_same hc _
  | compare =>
    obtain ⟨output, heq⟩ := serve_compare (c := c) hs
    rw [heq]
    exact answered_same hc output
  | statistics => exact answered_same hc _
  | reset =>
    rw [serve_reset hs]
    exact answered_new c (Subject.stems_planted hs.writable hs.valid) _
  | unknown name => exact answered_refuse hc (by simp)

theorem answered_enterAndShow (hc : c.Keeps last) (text : Text) :
    c.Answered ((Tree.accepted? text).or last) (c.enterAndShow text) := by
  rw [enterAndShow]
  rcases Subject.ofText_eq text with ⟨t, ht, heq⟩ | ⟨hnone, ⟨e, heq⟩ | ⟨e, heq⟩⟩
  · have hs := Subject.stems_accepted ht
    obtain ⟨notice, hnotice⟩ := Option.isSome_iff_exists.mp hs.sourceNotice
    rw [ht, heq]
    dsimp only
    rw [hnotice]
    exact answered_new c hs notice
  · rw [hnone, heq]
    exact answered_refuse hc (by simp)
  · rw [hnone, heq]
    exact answered_refuse hc (by simp)

end Console

/-- The tree that a command enters, on its own or from a file, if it is accepted. -/
def Command.accepted? (files : Files) : Command → Option Tree
  | .enter text => Tree.accepted? text
  | .load [name] => (files name).toOption.bind Tree.accepted?
  | _ => none

/-- A text that starts with a colon has a first word. -/
theorem Text.words_colon (rest : Text) :
    ∃ word words, Text.words (Text.ascii ':' :: rest) = word :: words := by
  have hglyphs : Text.glyphs (Text.ascii ':' :: rest) = .char ':' :: Text.glyphs rest := rfl
  have hblank : (Glyph.char ':').isOf isBlank = false := by decide
  rw [Text.words, hglyphs, List.foldr_cons, hblank]
  exact ⟨_, _, rfl⟩

/-- Every line asks for something. -/
theorem Command.ofLine?_isSome (line : Text) : (Command.ofLine? line).isSome = true := by
  rw [Command.ofLine?]
  split
  · rename_i hcolon
    obtain ⟨rest, rfl⟩ := List.head?_eq_some_iff.mp hcolon
    obtain ⟨word, words, hwords⟩ := Text.words_colon rest
    rw [hwords]
    rfl
  · rfl

namespace Console

variable {c : Console} {last : Option Tree}

theorem answered_perform (hraises : c.options.raises = false) (hc : c.Keeps last) (files : Files)
    (command : Command) :
    c.Answered ((command.accepted? files).or last) (c.perform files command) := by
  cases command with
  | enter text => exact answered_enterAndShow hc text
  | quit => exact ⟨rfl, hc, by simp [perform], by simp [perform]⟩
  | simplifications => exact answered_same hc _
  | load arguments =>
    match arguments with
    | [name] =>
      rw [perform, Command.accepted?]
      cases files name with
      | ok content => exact answered_enterAndShow hc content
      | error e => exact answered_refuse hc (by simp)
    | [] | _ :: _ :: _ => exact answered_refuse hc (by simp)
  | onTree request =>
    have hrel : Option.Rel Subject.Stems c.subject last := hc
    cases hsubject : c.subject with
    | none =>
      rw [perform, hsubject]
      exact answered_refuse hc (by simp)
    | some s =>
      rw [hsubject] at hrel
      obtain ⟨hs⟩ := hrel
      rw [perform, hsubject]
      exact answered_serve hraises hc hs request

theorem answered_eval (hraises : c.options.raises = false) (hc : c.Keeps last) (files : Files)
    (line : Text) :
    c.Answered (((Command.ofLine? line).bind (·.accepted? files)).or last)
      (c.eval files line) := by
  obtain ⟨command, hcommand⟩ := Option.isSome_iff_exists.mp (Command.ofLine?_isSome line)
  rw [eval, hcommand]
  exact answered_perform hraises hc files command

/-! ## Lines in a row -/

/-- The console after lines, each with the files that can be read at its time. -/
def after (c : Console) (lines : List (Files × Text)) : Console :=
  lines.foldl (fun c line => (c.eval line.1 line.2).console) c

/-- The tree that a line or a file entered last and that was accepted, or else the one given. -/
def lastAccepted (last : Option Tree) (lines : List (Files × Text)) : Option Tree :=
  lines.foldl (fun last line => ((Command.ofLine? line.2).bind (·.accepted? line.1)).or last) last

/-- What is under work after lines stems from the tree that was accepted last. -/
theorem keeps_after (hraises : c.options.raises = false) (hc : c.Keeps last)
    (lines : List (Files × Text)) :
    (c.after lines).options = c.options ∧ (c.after lines).Keeps (lastAccepted last lines) := by
  induction lines generalizing c last with
  | nil => exact ⟨rfl, hc⟩
  | cons line lines ih =>
    have hline := answered_eval hraises hc line.1 line.2
    obtain ⟨hoptions, hkeeps⟩ := ih (hline.options ▸ hraises) hline.keeps
    exact ⟨hoptions.trans hline.options, hkeeps⟩

theorem eval_onTree {s : Subject} (hsubject : c.subject = some s) {line : Text} {request : Request}
    (hline : Command.ofLine? line = some (.onTree request)) (files : Files) :
    c.eval files line = c.serve s request := by
  rw [eval, hline]
  dsimp only
  rw [perform, hsubject]

/-- The console keeps the tree that was accepted last.  Begin with a console that has no tree, with
any options but that errors are not raised, and carry out any lines, with any files at the time of
each.  If a tree is under work then, it is valid, and what was entered reads back to the tree that
was accepted last.  Starting again restores that tree, without statistics, and comparing the trees
leaves the console as it is; neither fails.  A tree is missing only if none was accepted.  Whatever
the next line is, it is carried out without a fault, and if it fails for another reason than an
error of a pass, the console is what it was before. -/
theorem console_keeps_tree (hempty : c.subject = none) (hraises : c.options.raises = false)
    (lines : List (Files × Text)) :
    let now := c.after lines
    (∀ s, now.subject = some s → ∃ t, lastAccepted none lines = some t ∧
      s.tree.invalid? = none ∧ Tree.read s.entered = .ok t ∧
      (∀ files line, Command.ofLine? line = some (.onTree .reset) → ∃ again,
        now.eval files line = { console := { now with subject := some again } } ∧
        again.tree = t ∧ again.entered = s.entered ∧ again.stats = none) ∧
      ∀ files line, Command.ofLine? line = some (.onTree .compare) →
        ∃ output, now.eval files line = { console := now, output }) ∧
    (now.subject = none → lastAccepted none lines = none) ∧
    ∀ files line, (∀ fault, (now.eval files line).outcome ≠ .failed (.fault fault)) ∧
      ∀ error, (now.eval files line).outcome = .failed error → (∀ e, error ≠ .pass e) →
        (now.eval files line).console = now := by
  have hc : c.Keeps none := by
    rw [Keeps, hempty]
    exact .none
  intro now
  obtain ⟨hoptions, hkeeps⟩ := keeps_after hraises hc lines
  have hraises' : now.options.raises = false := by rw [hoptions, hraises]
  generalize lastAccepted none lines = last at hkeeps ⊢
  have hrel : Option.Rel Subject.Stems now.subject last := hkeeps
  refine ⟨fun s hsubject => ?_, fun hsubject => ?_, fun files line => ?_⟩
  · rw [hsubject] at hrel
    obtain ⟨hs⟩ := hrel
    refine ⟨_, rfl, hs.tree_valid, hs.read, fun files line hline => ?_, fun files line hline => ?_⟩
    · rw [eval_onTree hsubject hline, serve_reset hs]
      exact ⟨_, rfl, Subject.tree_planted hs.wellFormed, hs.entered.symm, rfl⟩
    · rw [eval_onTree hsubject hline]
      exact serve_compare hs
  · rw [hsubject] at hrel
    cases hrel
    rfl
  · have hline := answered_eval hraises' hkeeps files line
    exact ⟨hline.no_fault, hline.unchanged⟩

/-- The script of the statements `a` and `b`. -/
def twoStatements : Tree :=
  .node .script [.list [.node .expressionStatement [.node (.identifierExpression "a") []],
    .node .expressionStatement [.node (.identifierExpression "b") []]]]

/-- A script is entered and optimized, and an unknown rule is asked for; then the console starts
again. -/
theorem console_keeps_tree_twoStatements :
    let files : Files := fun _ => .error .missing
    let c : Console := { options := { validates := true, limit := some 100 } }
    let lines : List (Files × Text) :=
      [(files, "(Script [(ExpressionStatement a) (ExpressionStatement b)])"), (files, ":opt"),
        (files, ":rule inline")]
    c.subject = none ∧ c.options.raises = false ∧ ∃ s again, (c.after lines).subject = some s ∧
      s.tree.invalid? = none ∧ Tree.read s.entered = .ok twoStatements ∧
      (c.after lines).eval files ":reset" =
        { console := { c.after lines with subject := some again } } ∧
      again.tree = twoStatements := by
  intro files c lines
  have hread : Tree.read "(Script [(ExpressionStatement a) (ExpressionStatement b)])" =
      .ok twoStatements := rfl
  have hvalid : twoStatements.invalid? = none := by cbv
  have henter : Command.ofLine? "(Script [(ExpressionStatement a) (ExpressionStatement b)])" =
      some (.enter "(Script [(ExpressionStatement a) (ExpressionStatement b)])") := rfl
  have hoptimize : Command.ofLine? ":opt" = some (.onTree .optimize) := by decide
  have hrule : Command.ofLine? ":rule inline" = some (.onTree (.simplify ["inline"])) := by decide
  have hreset : Command.ofLine? ":reset" = some (.onTree .reset) := by decide
  have hlast : lastAccepted none lines = some twoStatements := by
    simp [lastAccepted, lines, henter, hoptimize, hrule, Command.accepted?, Tree.accepted?, hread,
      Except.toOption, hvalid]
  obtain ⟨hpresent, habsent, -⟩ := console_keeps_tree (c := c) rfl rfl lines
  cases hsubject : (c.after lines).subject with
  | none =>
    rw [habsent hsubject] at hlast
    cases hlast
  | some s =>
    obtain ⟨t, ht, hinvalid, hentered, hagain, -⟩ := hpresent s hsubject
    obtain rfl : twoStatements = t := Option.some.inj (hlast.symm.trans ht)
    obtain ⟨again, heq, htree, -⟩ := hagain files ":reset" hreset
    exact ⟨rfl, rfl, s, again, rfl, hinvalid, hentered, heq, htree⟩

end Console

end ScriptSimplifier
