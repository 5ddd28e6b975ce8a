import ScriptSimplifier.Proofs.Source.Recovery

/-!
# Snapshots determine trees

Statements are recovered like expressions, without parentheses to count: what a statement starts
with and ends with follows from its outline.  A snapshot gives the outline and the source, so
spelled trees with the same snapshot are the same (`snapshot_inj`).
-/

namespace ScriptSimplifier

open Text (Tells Stops)
open Source (Follows)

/-! ## Statements -/

theorem Binding.tells {x y : Tree} (hx : Binding isSpelled x) (hy : Binding isSpelled y) :
    Tells Follows Tree.text x y := by
  cases hx with
  | identifier h =>
    cases hy with
    | identifier h' =>
      intro u v hu hv heq
      obtain ⟨rfl, rfl⟩ := name_tells h h' hu.stops hv.stops heq
      exact ⟨rfl, rfl⟩

/-- Statements in braces, as many on either side. -/
theorem braced_tells {xs ys : List Tree}
    (h : List.Forall₂ (Tells (fun _ => True) Tree.text) xs ys) :
    Tells (fun _ => True) (fun ts => Source.braced (ts.map Tree.text)) xs ys := by
  intro u v _ _ heq
  cases h with
  | nil => exact ⟨rfl, List.append_cancel_left heq⟩
  | cons hhere hbehind =>
    simp only [Source.braced, List.map_cons, List.isEmpty_cons, Bool.false_eq_true, if_false,
      List.append_assoc, List.append_cancel_left_eq] at heq
    rw [← List.map_cons, ← List.map_cons] at heq
    obtain ⟨hrow, hclosing⟩ :=
      Text.join_tells (fun _ => trivial) (.cons hhere hbehind) trivial trivial heq
    exact ⟨hrow, List.append_cancel_left hclosing⟩

/-- A jump with or without a target. -/
theorem jump_tells {keyword : String} {target target' : Text}
    (h : (target.isEmpty || SExpression.isPlainName target) = true)
    (h' : (target'.isEmpty || SExpression.isPlainName target') = true) :
    Tells (fun _ => True) (Source.jump keyword) target target' := by
  have hplain : ∀ {target : Text}, (target.isEmpty || SExpression.isPlainName target) = true →
      target ≠ [] → SExpression.isPlainName target = true := by
    intro target h hne
    simpa [hne] using h
  have hdiffer : Text.ascii ' ' ≠ Text.ascii ';' := by decide
  intro u v _ _ heq
  simp only [Source.jump, List.append_assoc, List.append_cancel_left_eq] at heq
  by_cases hnone : target = []
  · by_cases hnone' : target' = []
    · subst hnone hnone'
      exact ⟨rfl, List.append_cancel_left heq⟩
    · simp [hnone, hnone', hdiffer.symm] at heq
  · by_cases hnone' : target' = []
    · simp [hnone, hnone', hdiffer] at heq
    · simp only [List.isEmpty_iff, hnone, hnone', if_false, List.cons_append] at heq
      obtain ⟨hsame, hend⟩ := name_tells (hplain h hnone) (hplain h' hnone')
        (Text.stops_cons (by decide) _) (Text.stops_cons (by decide) _) (List.cons.inj heq).2
      exact ⟨hsame, (List.cons.inj hend).2⟩

/-- The outline shows whether an alternate is missing. -/
theorem Statement.isOpenIf_outline {p : Label → List Tree → Bool} {s : Tree}
    (h : Statement p s) : Source.isOpenIf s.outline = Source.isOpenIf s := by
  cases h with
  | ifElse _ _ _ halternate => cases halternate <;> rfl
  | _ => rfl

theorem outline_ne_missing {t : Tree} (h : t.isMissing = false) : t.outline ≠ .missing := by
  cases t with
  | missing => simp [Tree.isMissing] at h
  | node label children => simp [Tree.outline]
  | list items => simp [Tree.outline]

/-- An expression with a text behind it that may follow an expression. -/
theorem Expression.tells_before {e e' : Tree} (he : Expression isSpelled e)
    (he' : Expression isSpelled e') (hout : e.outline = e'.outline) {behind u v : Text}
    (hbehind : behind.head?.any Source.isEnd = true)
    (heq : e.text ++ (behind ++ u) = e'.text ++ (behind ++ v)) : e = e' ∧ u = v := by
  obtain ⟨hsame, hrest⟩ := he.tells he' hout (Source.follows_append hbehind _)
    (Source.follows_append hbehind _) heq
  exact ⟨hsame, List.append_cancel_left hrest⟩

/-- A statement that its text tells apart from the other statements with its outline. -/
def ToldApart (s : Tree) : Prop :=
  ∀ ⦃t : Tree⦄, Statement isSpelled t → s.outline = t.outline → Tells (fun _ => True) Tree.text s t

theorem ToldApart.row {statements statements' : List Tree} (ih : ∀ s ∈ statements, ToldApart s)
    (hstatements' : ∀ s ∈ statements', Statement isSpelled s)
    (hout : outlineAll statements = outlineAll statements') :
    List.Forall₂ (Tells (fun _ => True) Tree.text) statements statements' :=
  forall₂_of_outline hout fun s hs s' hs' hsame => ih s hs (hstatements' s' hs') hsame

/-! One lemma for each kind of statement follows.  As for expressions, the outline leaves one case
of the other statement; where a part may be missing, the outline shows whether it is. -/

theorem ToldApart.block {statements : List Tree}
    (hstatements : ∀ s ∈ statements, Statement isSpelled s) (ih : ∀ s ∈ statements, ToldApart s) :
    ToldApart (.node .blockStatement [.node .block [.list statements]]) := by
  intro t ht hout u v _ _ heq
  cases ht with
  | @block statements' houter' hinner' hstatements' =>
    have houtStatements : outlineAll statements = outlineAll statements' := by
      simpa [outlineAll, Tree.outline] using (outline_node hout).2
    rw [text_blockStatement hstatements, text_blockStatement hstatements'] at heq
    obtain ⟨rfl, rfl⟩ :=
      braced_tells (ToldApart.row ih hstatements' houtStatements) trivial trivial heq
    exact ⟨rfl, rfl⟩
  | _ => exact absurd (outline_node hout).1 (by simp [Label.kind])

theorem ToldApart.expression {e : Tree} (he : Expression isSpelled e) :
    ToldApart (.node .expressionStatement [e]) := by
  intro t ht hout u v _ _ heq
  cases ht with
  | @expression e' h' he' =>
    have houtE : e.outline = e'.outline := by simpa [outlineAll] using (outline_node hout).2
    rw [text_expressionStatement he, text_expressionStatement he'] at heq
    simp only [List.append_assoc] at heq
    obtain ⟨rfl, rfl⟩ := he.tells_before he' houtE (by decide) heq
    exact ⟨rfl, rfl⟩
  | _ => exact absurd (outline_node hout).1 (by simp [Label.kind])

theorem ToldApart.returnNothing : ToldApart (.node .returnStatement [.missing]) := by
  intro t ht hout u v _ _ heq
  cases ht with
  | returnNothing h' => exact ⟨rfl, List.append_cancel_left heq⟩
  | returnValue h' he' =>
    have hmissing := (outline_node hout).2
    simp [outlineAll, Tree.outline, (outline_ne_missing he'.isMissing).symm] at hmissing
  | _ => exact absurd (outline_node hout).1 (by simp [Label.kind])

theorem ToldApart.returnValue {e : Tree} (he : Expression isSpelled e) :
    ToldApart (.node .returnStatement [e]) := by
  intro t ht hout u v _ _ heq
  cases ht with
  | returnNothing h' =>
    have hmissing := (outline_node hout).2
    simp [outlineAll, Tree.outline, outline_ne_missing he.isMissing] at hmissing
  | @returnValue e' h' he' =>
    have houtE : e.outline = e'.outline := by simpa [outlineAll] using (outline_node hout).2
    rw [text_return he, text_return he'] at heq
    simp only [List.append_assoc, List.append_cancel_left_eq] at heq
    obtain ⟨rfl, rfl⟩ := he.tells_before he' houtE (by decide) heq
    exact ⟨rfl, rfl⟩
  | _ => exact absurd (outline_node hout).1 (by simp [Label.kind])

theorem ToldApart.throwing {e : Tree} (he : Expression isSpelled e) :
    ToldApart (.node .throwStatement [e]) := by
  intro t ht hout u v _ _ heq
  cases ht with
  | @throwing e' h' he' =>
    have houtE : e.outline = e'.outline := by simpa [outlineAll] using (outline_node hout).2
    rw [text_throw he, text_throw he'] at heq
    simp only [List.append_assoc, List.append_cancel_left_eq] at heq
    obtain ⟨rfl, rfl⟩ := he.tells_before he' houtE (by decide) heq
    exact ⟨rfl, rfl⟩
  | _ => exact absurd (outline_node hout).1 (by simp [Label.kind])

theorem ToldApart.breaking {target : Text} (h : isSpelled (.breakStatement target) [] = true) :
    ToldApart (.node (.breakStatement target) []) := by
  intro t ht hout u v _ _ heq
  cases ht with
  | breaking h' =>
    obtain ⟨rfl, rfl⟩ := jump_tells h h' trivial trivial heq
    exact ⟨rfl, rfl⟩
  | _ => exact absurd (outline_node hout).1 (by simp [Label.kind])

theorem ToldApart.continuing {target : Text}
    (h : isSpelled (.continueStatement target) [] = true) :
    ToldApart (.node (.continueStatement target) []) := by
  intro t ht hout u v _ _ heq
  cases ht with
  | continuing h' =>
    obtain ⟨rfl, rfl⟩ := jump_tells h h' trivial trivial heq
    exact ⟨rfl, rfl⟩
  | _ => exact absurd (outline_node hout).1 (by simp [Label.kind])

theorem ToldApart.empty : ToldApart (.node .emptyStatement []) := by
  intro t ht hout u v _ _ heq
  cases ht with
  | empty h' => exact ⟨rfl, List.append_cancel_left heq⟩
  | _ => exact absurd (outline_node hout).1 (by simp [Label.kind])

theorem ToldApart.ifThen {test consequent : Tree} (htest : Expression isSpelled test)
    (hconsequent : Statement isSpelled consequent) (ih : ToldApart consequent) :
    ToldApart (.node .ifStatement [test, consequent, .missing]) := by
  intro t ht hout u v _ _ heq
  cases ht with
  | @ifThen test' consequent' h' htest' hconsequent' =>
    obtain ⟨houtTest, houtConsequent⟩ : test.outline = test'.outline ∧
        consequent.outline = consequent'.outline := by
      simpa [outlineAll, Tree.outline] using (outline_node hout).2
    rw [text_ifThen htest hconsequent, text_ifThen htest' hconsequent'] at heq
    simp only [List.append_assoc, List.append_cancel_left_eq] at heq
    obtain ⟨rfl, hbehind⟩ := htest.tells_before htest' houtTest (by decide) heq
    obtain ⟨rfl, rfl⟩ := ih hconsequent' houtConsequent trivial trivial hbehind
    exact ⟨rfl, rfl⟩
  | ifElse h' htest' hconsequent' halternate' =>
    have hmissing := (outline_node hout).2
    simp [outlineAll, Tree.outline, (outline_ne_missing halternate'.isMissing).symm] at hmissing
  | _ => exact absurd (outline_node hout).1 (by simp [Label.kind])

/-- A consequent that is in braces if it is an `if` without an alternate, and not otherwise. -/
theorem ToldApart.consequent {consequent consequent' : Tree}
    (hconsequent : Statement isSpelled consequent) (hconsequent' : Statement isSpelled consequent')
    (hout : consequent.outline = consequent'.outline) (ih : ToldApart consequent) :
    Tells (fun _ => True) (fun s => if Source.isOpenIf s then
      Text.ofString "\x7b " ++ (s.text ++ Text.ofString " \x7d") else s.text)
      consequent consequent' := by
  -- both consequents are in braces, or neither
  have hopen : Source.isOpenIf consequent' = Source.isOpenIf consequent := by
    rw [← hconsequent.isOpenIf_outline, ← hconsequent'.isOpenIf_outline, hout]
  intro u v _ _ heq
  simp only [hopen] at heq
  split at heq
  · simp only [List.append_assoc, List.append_cancel_left_eq] at heq
    obtain ⟨hsame, hbehind⟩ := ih hconsequent' hout trivial trivial heq
    exact ⟨hsame, List.append_cancel_left hbehind⟩
  · exact ih hconsequent' hout trivial trivial heq

theorem ToldApart.ifElse {test consequent alternate : Tree} (htest : Expression isSpelled test)
    (hconsequent : Statement isSpelled consequent) (halternate : Statement isSpelled alternate)
    (ihconsequent : ToldApart consequent) (ihalternate : ToldApart alternate) :
    ToldApart (.node .ifStatement [test, consequent, alternate]) := by
  intro t ht hout u v _ _ heq
  cases ht with
  | ifThen h' htest' hconsequent' =>
    have hmissing := (outline_node hout).2
    simp [outlineAll, Tree.outline, outline_ne_missing halternate.isMissing] at hmissing
  | @ifElse test' consequent' alternate' h' htest' hconsequent' halternate' =>
    obtain ⟨houtTest, houtConsequent, houtAlternate⟩ : test.outline = test'.outline ∧
        consequent.outline = consequent'.outline ∧ alternate.outline = alternate'.outline := by
      simpa [outlineAll] using (outline_node hout).2
    rw [text_ifElse htest hconsequent halternate, text_ifElse htest' hconsequent' halternate']
      at heq
    simp only [List.append_assoc, List.append_cancel_left_eq] at heq
    obtain ⟨rfl, hbehind⟩ := htest.tells_before htest' houtTest (by decide) heq
    obtain ⟨rfl, helse⟩ := ToldApart.consequent hconsequent hconsequent' houtConsequent ihconsequent
      trivial trivial hbehind
    obtain ⟨rfl, rfl⟩ := ihalternate halternate' houtAlternate trivial trivial
      (List.append_cancel_left helse)
    exact ⟨rfl, rfl⟩
  | _ => exact absurd (outline_node hout).1 (by simp [Label.kind])

theorem ToldApart.loop {test body : Tree} (htest : Expression isSpelled test)
    (hbody : Statement isSpelled body) (ih : ToldApart body) :
    ToldApart (.node .whileStatement [test, body]) := by
  intro t ht hout u v _ _ heq
  cases ht with
  | @loop test' body' h' htest' hbody' =>
    obtain ⟨houtTest, houtBody⟩ : test.outline = test'.outline ∧ body.outline = body'.outline := by
      simpa [outlineAll] using (outline_node hout).2
    rw [text_while htest hbody, text_while htest' hbody'] at heq
    simp only [List.append_assoc, List.append_cancel_left_eq] at heq
    obtain ⟨rfl, hbehind⟩ := htest.tells_before htest' houtTest (by decide) heq
    obtain ⟨rfl, rfl⟩ := ih hbody' houtBody trivial trivial hbehind
    exact ⟨rfl, rfl⟩
  | _ => exact absurd (outline_node hout).1 (by simp [Label.kind])

theorem ToldApart.function {name : Text} {params statements : List Tree}
    (h : SExpression.isPlainName name = true) (hparams : ∀ t ∈ params, Binding isSpelled t)
    (hstatements : ∀ t ∈ statements, Statement isSpelled t) (ih : ∀ t ∈ statements, ToldApart t) :
    ToldApart (.node (.functionDeclaration name)
      [.list params, .node .functionBody [.list statements]]) := by
  intro t ht hout u v _ _ heq
  cases ht with
  | @function name' params' statements' h' hinner' hparams' hstatements' =>
    obtain ⟨houtParams, houtStatements⟩ : outlineAll params = outlineAll params' ∧
        outlineAll statements = outlineAll statements' := by
      simpa [outlineAll, Tree.outline] using (outline_node hout).2
    rw [text_function hparams hstatements, text_function hparams' hstatements'] at heq
    simp only [List.append_assoc, List.append_cancel_left_eq, List.cons_append] at heq
    obtain ⟨rfl, hopening⟩ := name_tells h h' (Text.stops_cons (by decide) _)
      (Text.stops_cons (by decide) _) heq
    have hrow := forall₂_of_outline houtParams fun t ht t' ht' _ =>
      (hparams t ht).tells (hparams' t' ht')
    obtain ⟨rfl, hclosing⟩ := Text.join_tells (fun _ => Source.follows_append (by decide) _) hrow
      (Source.follows_append (by decide) _) (Source.follows_append (by decide) _)
      (List.cons.inj hopening).2
    obtain ⟨rfl, rfl⟩ := braced_tells (ToldApart.row ih hstatements' houtStatements) trivial trivial
      (List.append_cancel_left hclosing)
    exact ⟨rfl, rfl⟩
  | _ => exact absurd (outline_node hout).1 (by simp [Label.kind])

theorem Statement.toldApart {s : Tree} (hs : Statement isSpelled s) : ToldApart s := by
  induction hs with
  | block houter hinner hstatements ih => exact .block hstatements ih
  | expression h he => exact .expression he
  | returnNothing h => exact .returnNothing
  | returnValue h he => exact .returnValue he
  | throwing h he => exact .throwing he
  | breaking h => exact .breaking h
  | continuing h => exact .continuing h
  | empty h => exact .empty
  | ifThen h htest hconsequent ih => exact .ifThen htest hconsequent ih
  | ifElse h htest hconsequent halternate ihconsequent ihalternate =>
    exact .ifElse htest hconsequent halternate ihconsequent ihalternate
  | loop h htest hbody ih => exact .loop htest hbody ih
  | function h hinner hparams hstatements ih => exact .function h hparams hstatements ih

/-! ## Whole trees -/

/-- A valid tree with plain names and known operators. -/
def Tree.isPlain (t : Tree) : Bool :=
  t.isShaped && t.invalid?.isNone && t.allNodes isSpelled

theorem isWellFormed_of_isPlain {t : Tree} (h : t.isPlain = true) :
    t.isWellFormed .full = true := by
  simp only [Tree.isPlain, Bool.and_eq_true, Option.isNone_iff_eq_none] at h
  obtain ⟨⟨hshaped, hvalid⟩, hspelled⟩ := h
  refine (isWellFormed_iff rfl).mpr ⟨hshaped, fun _ => ?_, hvalid⟩
  refine Tree.allNodes_mono (fun label children h => ?_) t hspelled
  cases label with
  | unaryExpression op =>
    have hne : ∀ op ∈ Grammar.unaryOperators, op ≠ [] := by decide
    have hop := hne op (List.contains_iff_mem.mp h)
    simpa [Label.hasOperator] using hop
  | _ => rfl

theorem good_of_isPlain {t : Tree} (h : t.isPlain = true) :
    t.kind?.isSome ∧ t.Good isSpelled := by
  have hformed := isWellFormed_of_isPlain h
  simp only [Tree.isPlain, Tree.isWellFormed, Bool.and_eq_true] at h hformed
  exact ⟨hformed.1, hformed.2, h.2⟩

theorem snapshot?_isSome {t : Tree} (h : t.isPlain = true) : t.snapshot?.isSome := by
  have hfingerprint := fingerprint?_isSome (isWellFormed_loose rfl (isWellFormed_of_isPlain h))
  simpa [Tree.fingerprint?] using hfingerprint

/-- A node is an expression, a statement or a binding, or does nothing but hold statements. -/
theorem category_cases (label : Label) (children : List Tree) :
    (Tree.node label children).isIn .expression = true ∨
    (Tree.node label children).isIn .statement = true ∨
    (Tree.node label children).isIn .binding = true ∨
    label ∈ [.script, .functionBody, .block] := by
  cases label <;> first
    | exact .inl rfl
    | exact .inr (.inl rfl)
    | exact .inr (.inr (.inl rfl))
    | exact .inr (.inr (.inr (by simp)))

theorem isIn_outline (t : Tree) (c : Category) : t.outline.isIn c = t.isIn c := by
  cases t with
  | missing => rfl
  | node label children => simp [Tree.outline, Tree.isIn, Tree.kind?, Label.kind_blank]
  | list items => rfl

/-- What only holds statements, with a label that is known by its kind. -/
theorem holder_recovers {label label' : Label} {children children' : List Tree}
    (hlabel : label ∈ [.script, .functionBody, .block])
    (hgood : (Tree.node label children).Good isSpelled)
    (hgood' : (Tree.node label' children').Good isSpelled)
    (hout : (Tree.node label children).outline = (Tree.node label' children').outline)
    (htext : (Tree.node label children).text = (Tree.node label' children').text) :
    Tree.node label children = Tree.node label' children' := by
  obtain ⟨hkind, hbelow⟩ := outline_node hout
  obtain ⟨hfields, hsame⟩ :
      label.fields = [.list "statements" .statement] ∧ label' = label := by
    simp only [List.mem_cons, List.not_mem_nil, or_false] at hlabel
    rcases hlabel with rfl | rfl | rfl <;>
      cases label' <;> first | exact ⟨rfl, rfl⟩ | simp [Label.kind] at hkind
  subst hsame
  obtain ⟨-, items, rfl, hitems⟩ := statements_of_good hgood hfields
  obtain ⟨-, items', rfl, hitems'⟩ := statements_of_good hgood' hfields
  have hstatements : ∀ s ∈ items, Statement isSpelled s := fun s hs =>
    statement_of_good s (hitems s hs).1 (hitems s hs).2.1
  have hstatements' : ∀ s ∈ items', Statement isSpelled s := fun s hs =>
    statement_of_good s (hitems' s hs).1 (hitems' s hs).2.1
  have houtItems : outlineAll items = outlineAll items' := by
    simpa [outlineAll, Tree.outline] using hbelow
  have hrow := forall₂_of_outline houtItems fun s hs s' hs' hsame =>
    (hstatements s hs).toldApart (hstatements' s' hs') hsame
  obtain ⟨hblock, hbody, hscript⟩ := text_holder hstatements
  obtain ⟨hblock', hbody', hscript'⟩ := text_holder hstatements'
  simp only [List.mem_cons, List.not_mem_nil, or_false] at hlabel
  rcases hlabel with rfl | rfl | rfl
  · rw [(Text.join_tells (fun _ => trivial) hrow).eq trivial
      (hscript.symm.trans (htext.trans hscript'))]
  · rw [(braced_tells hrow).eq trivial (hbody.symm.trans (htext.trans hbody'))]
  · rw [(braced_tells hrow).eq trivial (hblock.symm.trans (htext.trans hblock'))]

/-- Trees with the same outline and the same source are the same. -/
theorem Tree.recovers {t u : Tree} (ht : t.isPlain = true) (hu : u.isPlain = true)
    (hout : t.outline = u.outline) (hsource : t.source? = u.source?) : t = u := by
  obtain ⟨hnode, hgood⟩ := good_of_isPlain ht
  obtain ⟨hnode', hgood'⟩ := good_of_isPlain hu
  have hin : ∀ {c}, t.isIn c = true → u.isIn c = true := by
    intro c hc
    rwa [← isIn_outline, ← hout, isIn_outline]
  have htext : t.text = u.text := by rw [Tree.text, Tree.text, hsource]
  cases t with
  | missing => simp [Tree.kind?] at hnode
  | list items => simp [Tree.kind?] at hnode
  | node label children =>
    rcases category_cases label children with hc | hc | hc | hlabel
    · have he := expression_of_good _ hgood hc
      have he' := expression_of_good _ hgood' (hin hc)
      exact (he.tells he' hout).eq trivial htext
    · have hs := statement_of_good _ hgood hc
      have hs' := statement_of_good _ hgood' (hin hc)
      exact (hs.toldApart hs' hout).eq trivial htext
    · have hb := binding_of_good _ hgood hc
      have hb' := binding_of_good _ hgood' (hin hc)
      exact (hb.tells hb').eq trivial htext
    · cases u with
      | missing => simp [Tree.kind?] at hnode'
      | list items => simp [Tree.kind?] at hnode'
      | node label' children' => exact holder_recovers hlabel hgood hgood' hout htext

/-- Plain trees with the same snapshot are the same. -/
theorem snapshot_inj {t u : Tree} (ht : t.isPlain = true) (hu : u.isPlain = true)
    (heq : t.snapshot? = u.snapshot?) : t = u := by
  have hshaped : ∀ {t : Tree}, t.isPlain = true → t.allNodes Tree.nodeShaped = true := by
    intro t ht
    simp only [Tree.isPlain, Tree.isShaped, Bool.and_eq_true] at ht
    exact ht.1.1.2
  obtain ⟨hkinds, hsource⟩ := snapshot_unique (snapshot?_isSome ht) heq
  have hout := (kinds_unique (hshaped ht) u (hshaped hu) (congrArg (· ++ []) hkinds)).1
  exact Tree.recovers ht hu hout hsource

end ScriptSimplifier
