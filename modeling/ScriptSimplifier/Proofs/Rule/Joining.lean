import Mathlib.Data.List.TakeWhile
import ScriptSimplifier.Proofs.Rule.Fusion

/-!
# Joining one by one

`Sequences.join` collects the leaves of its second operand and appends them, and
`Sequences.runsFrom` finds the runs of a list from its end.  Both can be read as plainer
recursions.  Joining an expression with a leaf makes one comma expression, and joining it with a
comma expression joins it with the left operand and the result with the right one
(`join_leaf`, `join_comma`).  The runs of two or more statements are what a loop over the positions
of the list comes across, which looks for the end of the run at every expression statement and goes
on behind it (`longRuns_eq_scan`).
-/

namespace ScriptSimplifier

namespace Sequences

open Workspace

variable {s : Store} {w : Workspace} {left right : Option Ref}

/-! ## Two expressions -/

/-- An expression that is no comma expression becomes the right operand of a new one. -/
theorem join_leaf (hright : IsLeaf w.store right) :
    join w left right =
      let (r, w') := w.add (.binaryExpression comma) [left, right]
      (some r, w') := by
  rw [join, leavesOf_leaf hright, List.foldl_cons, List.foldl_nil]

/-- A comma expression is joined operand by operand. -/
theorem join_comma (hs : w.store.Acyclic) (hc : w.store.Closed) (hleft : w.store.KnownAt left)
    {r : Ref} {first second : Option Ref}
    (hr : w.store.get r = .node (.binaryExpression comma) [first, second]) :
    join w left (some r) =
      let (joined, w') := join w left first
      join w' joined second := by
  have hknown : ∀ e ∈ [first, second], w.store.KnownAt e := fun e he =>
    hc.knownAt (r := r) (by rwa [Store.below, hr])
  have hfirst : Appends w left (leavesOf w.store first) (join w left first) :=
    appends_append hs hc hleft (knownAt_leaf hs hc (hknown first (by simp)))
  -- the leaves of the right operand are the same after the left one was joined
  have hsame : leavesOf (join w left first).2.store second = leavesOf w.store second :=
    leavesOf_extends hfirst.grows hs hc hfirst.acyclic (hknown second (by simp))
  show join w left (some r) = join (join w left first).2 (join w left first).1 second
  rw [join, leavesOf_comma hs hr, List.foldl_append]
  rw [join, hsame]
  rfl

/-! ## Runs by position -/

/-- The position behind the expression statements that stand from a position on. -/
def runEnd (s : Store) (items : List (Option Ref)) (j : Nat) : Nat :=
  if h : j < items.length then
    if (statementExpression? s items[j]).isSome then runEnd s items (j + 1) else j
  else j
  termination_by items.length - j

/-- The expression statements that stand from a position on. -/
def ahead (s : Store) (items : List (Option Ref)) (j : Nat) : List (Option Ref) :=
  (items.drop j).takeWhile fun item => (statementExpression? s item).isSome

theorem runEnd_eq (s : Store) (items : List (Option Ref)) (j : Nat) :
    runEnd s items j = j + (ahead s items j).length := by
  induction j using runEnd.induct s items with
  | case1 j h hstatement ih =>
    rw [runEnd, dif_pos h, if_pos hstatement, ih, ahead, ahead, List.drop_eq_getElem_cons h,
      List.takeWhile_cons, if_pos hstatement, List.length_cons]
    omega
  | case2 j h hother =>
    rw [runEnd, dif_pos h, if_neg hother, ahead, List.drop_eq_getElem_cons h,
      List.takeWhile_cons, if_neg hother]
    rfl
  | case3 j h =>
    rw [runEnd, dif_neg h, ahead, List.drop_eq_nil_of_le (Nat.le_of_not_lt h)]
    rfl

/-- The runs of two or more expression statements that a loop comes across from a position on: it
looks for the end of the run at each expression statement, and goes on behind the end of a run. -/
def scan (s : Store) (items : List (Option Ref)) (i : Nat) : List Run :=
  if h : i < items.length then
    match statementExpression? s items[i] with
    | none => scan s items (i + 1)
    | some first =>
      let j := runEnd s items (i + 1)
      if j = i + 1 then scan s items (i + 1)
      else
        let others := ((items.take j).drop (i + 1)).filterMap (statementExpression? s)
        ⟨i, first :: others⟩ :: scan s items (j + 1)
  else []
  termination_by items.length - i
  decreasing_by
    all_goals try rw [runEnd_eq]
    all_goals omega

section runsFrom

variable {position : Nat} {item e : Option Ref} {rest es : List (Option Ref)}

theorem runsFrom_skip (hitem : statementExpression? s item = none) :
    runsFrom s position (item :: rest) = runsFrom s (position + 1) rest := by
  rw [runsFrom, hitem]

/-- No run starts with something that is no expression statement. -/
theorem runsFrom_apart (hapart : ∀ next ∈ rest.head?, statementExpression? s next = none) :
    ∀ run ∈ runsFrom s position rest, run.start ≠ position := by
  cases rest with
  | nil => simp [runsFrom]
  | cons next rest =>
    intro run hrun
    rw [runsFrom_skip (hapart next rfl)] at hrun
    have := (decomposes_runsFrom s (position + 1) rest).start_le run hrun
    omega

theorem runsFrom_alone (hitem : statementExpression? s item = some e)
    (hapart : ∀ next ∈ rest.head?, statementExpression? s next = none) :
    runsFrom s position (item :: rest) = ⟨position, [e]⟩ :: runsFrom s (position + 1) rest := by
  have hstart : ∀ run ∈ runsFrom s (position + 1) rest, run.start ≠ position + 1 :=
    runsFrom_apart hapart
  rw [runsFrom, hitem]
  cases hlater : runsFrom s (position + 1) rest with
  | nil => rfl
  | cons run more => exact if_neg (hstart run (by rw [hlater]; exact List.mem_cons_self))

/-- Expression statements in front of something else are one run. -/
theorem runsFrom_chunk {chunk : List (Option Ref)} (hne : chunk ≠ [])
    (hmap : chunk.map (statementExpression? s) = es.map some)
    (hapart : ∀ next ∈ rest.head?, statementExpression? s next = none) :
    runsFrom s position (chunk ++ rest) =
      ⟨position, es⟩ :: runsFrom s (position + chunk.length) rest := by
  induction chunk generalizing position es with
  | nil => exact absurd rfl hne
  | cons item chunk ih =>
    obtain ⟨e, es, rfl, hitem, hmap⟩ := List.map_eq_cons_iff.mp hmap.symm
    cases chunk with
    | nil =>
      obtain rfl : es = [] := by simpa using hmap
      exact runsFrom_alone hitem.symm hapart
    | cons item' chunk =>
      have hlater : runsFrom s (position + 1) (item' :: chunk ++ rest) =
          ⟨position + 1, es⟩ :: runsFrom s (position + 1 + (item' :: chunk).length) rest :=
        ih (by simp) hmap.symm
      have hlength : position + 1 + (item' :: chunk).length =
          position + (item :: item' :: chunk).length := by
        simp only [List.length_cons]
        omega
      rw [List.cons_append, runsFrom, ← hitem, hlater, hlength]
      exact if_pos rfl

end runsFrom

theorem ahead_eq_take (s : Store) (items : List (Option Ref)) (j : Nat) :
    (items.take (runEnd s items j)).drop j = ahead s items j := by
  rw [List.drop_take, runEnd_eq, Nat.add_sub_cancel_left]
  exact (List.prefix_iff_eq_take.mp (List.takeWhile_prefix _)).symm

/-- What stands from a position on are the expression statements there and what is behind them. -/
theorem ahead_append_drop (s : Store) (items : List (Option Ref)) (j : Nat) :
    ahead s items j ++ items.drop (runEnd s items j) = items.drop j := by
  have hfront : ahead s items j = (items.drop j).take (ahead s items j).length :=
    List.prefix_iff_eq_take.mp (List.takeWhile_prefix _)
  rw [runEnd_eq, ← List.drop_drop]
  nth_rewrite 1 [hfront]
  exact List.take_append_drop _ _

/-- No expression statement stands at the end of a run. -/
theorem runEnd_apart (s : Store) (items : List (Option Ref)) (j : Nat) :
    ∀ next ∈ (items.drop (runEnd s items j)).head?, statementExpression? s next = none := by
  induction j using runEnd.induct s items with
  | case1 j h hstatement ih => rwa [runEnd, dif_pos h, if_pos hstatement]
  | case2 j h hother =>
    rw [runEnd, dif_pos h, if_neg hother, List.drop_eq_getElem_cons h]
    rintro _ ⟨⟩
    simpa using hother
  | case3 j h =>
    rw [runEnd, dif_neg h, List.drop_eq_nil_of_le (Nat.le_of_not_lt h)]
    simp

/-- The expressions of the statements ahead are all there. -/
theorem map_ahead (s : Store) (items : List (Option Ref)) (j : Nat) :
    (ahead s items j).map (statementExpression? s) =
      ((ahead s items j).filterMap (statementExpression? s)).map some := by
  have hall : ∀ item ∈ ahead s items j, (statementExpression? s item).isSome = true :=
    fun item hitem =>
      List.mem_takeWhile_imp (p := fun item => (statementExpression? s item).isSome) hitem
  generalize ahead s items j = run at hall
  induction run with
  | nil => rfl
  | cons item rest ih =>
    obtain ⟨hitem, hrest⟩ := List.forall_mem_cons.mp hall
    obtain ⟨e, he⟩ := Option.isSome_iff_exists.mp hitem
    rw [List.map_cons, List.filterMap_cons_some he, List.map_cons, ih hrest, he]

/-- Nothing starts at the end of a run. -/
theorem runsFrom_runEnd (s : Store) (items : List (Option Ref)) (j : Nat) :
    runsFrom s (runEnd s items j) (items.drop (runEnd s items j)) =
      runsFrom s (runEnd s items j + 1) (items.drop (runEnd s items j + 1)) := by
  have hapart := runEnd_apart s items j
  generalize runEnd s items j = k at hapart
  by_cases hk : k < items.length
  · rw [List.drop_eq_getElem_cons hk] at hapart ⊢
    exact runsFrom_skip (hapart _ rfl)
  · rw [List.drop_eq_nil_of_le (Nat.le_of_not_lt hk),
      List.drop_eq_nil_of_le (Nat.le_succ_of_le (Nat.le_of_not_lt hk)), runsFrom, runsFrom]

/-- The runs of two or more expression statements are those that the loop comes across. -/
theorem longRuns_eq_scan (s : Store) (items : List (Option Ref)) (i : Nat) :
    longRuns (runsFrom s i (items.drop i)) = scan s items i := by
  induction i using scan.induct s items with
  | case1 i h hnone ih =>
    rw [scan, dif_pos h, List.drop_eq_getElem_cons h, runsFrom_skip hnone, ih]
    simp [hnone]
  | case2 i h first hfirst j hj ih =>
    -- a single statement is no run to be fused
    have hend : runEnd s items (i + 1) = i + 1 := hj
    have hapart := runEnd_apart s items (i + 1)
    rw [hend] at hapart
    rw [scan, dif_pos h, List.drop_eq_getElem_cons h, runsFrom_alone hfirst hapart,
      longRuns_cons_short (by simp), ih]
    simp only [hfirst, hend, if_true]
  | case3 i h first hfirst j hj ih =>
    have hend : ¬ runEnd s items (i + 1) = i + 1 := hj
    have hmap : (items[i] :: ahead s items (i + 1)).map (statementExpression? s) =
        (first :: (ahead s items (i + 1)).filterMap (statementExpression? s)).map some := by
      rw [List.map_cons, List.map_cons, hfirst, map_ahead]
    have hlength : i + (items[i] :: ahead s items (i + 1)).length = runEnd s items (i + 1) := by
      rw [runEnd_eq, List.length_cons]
      omega
    have hlong :
        2 ≤ (first :: (ahead s items (i + 1)).filterMap (statementExpression? s)).length := by
      have hsame := congrArg List.length hmap
      rw [List.length_map, List.length_map] at hsame
      rw [← hsame, List.length_cons]
      rw [List.length_cons] at hlength
      omega
    rw [scan, dif_pos h, List.drop_eq_getElem_cons h, ← ahead_append_drop, ← List.cons_append,
      runsFrom_chunk (List.cons_ne_nil _ _) hmap (runEnd_apart s items (i + 1)), hlength,
      longRuns_cons_long hlong, runsFrom_runEnd, ih]
    simp only [hfirst, hend, if_false, ahead_eq_take]
    rfl
  | case4 i h =>
    rw [scan, dif_neg h, List.drop_eq_nil_of_le (Nat.le_of_not_lt h)]
    rfl

end Sequences

end ScriptSimplifier
