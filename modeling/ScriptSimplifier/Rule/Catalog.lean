import ScriptSimplifier.Rule.Basic
import ScriptSimplifier.Rule.Folding
import ScriptSimplifier.Rule.Sequences
import ScriptSimplifier.Rule.Statements

/-! # The catalog of simplifications

The simplifications that the optimizer applies, by name and in two phases: the first flattens
blocks and drops unreachable statements, the second fuses statements and folds constants. -/

namespace ScriptSimplifier

/-- A simplification of the catalog. -/
inductive Simplification where
  | deblock
  | dropDead
  | sequenceFusion
  | completionFusion
  | ifToConditional
  | foldConstant
  | foldConditional
  deriving Repr, DecidableEq

namespace Simplification

/-- The name of a simplification. -/
def name : Simplification → Text
  | .deblock => "deblock"
  | .dropDead => "drop-dead"
  | .sequenceFusion => "sequence-fusion"
  | .completionFusion => "completion-fusion"
  | .ifToConditional => "if-to-conditional"
  | .foldConstant => "fold-constant"
  | .foldConditional => "fold-conditional"

/-- What a simplification proposes at a place. -/
def propose : Simplification → Cursor → Workspace → Option (Edit × Workspace)
  | .deblock => Statements.flattenBlock
  | .dropDead => Sequences.dropUnreachable
  | .sequenceFusion => Sequences.fuseRuns
  | .completionFusion => Sequences.fuseCompletion
  | .ifToConditional => Statements.lowerIf
  | .foldConstant => Folding.foldOperation
  | .foldConditional => Folding.foldConditional

/-- The simplification as a rule. -/
def rule {σ : Type} (simplification : Simplification) : Rule σ :=
  .plain simplification.name simplification.propose

/-- Flattening of blocks and removal of unreachable statements. -/
def phaseOne : List Simplification := [.deblock, .dropDead]

/-- Fusion of statements, lowering of if statements and folding of constants. -/
def phaseTwo : List Simplification :=
  [.sequenceFusion, .completionFusion, .ifToConditional, .foldConstant, .foldConditional]

/-- The phases in the order in which they run. -/
def phases : List (List Simplification) := [phaseOne, phaseTwo]

/-- Every simplification once. -/
def all : List Simplification := phases.flatten

/-- The simplification with a name. -/
def ofName? (t : Text) : Option Simplification := all.find? (·.name == t)

end Simplification

end ScriptSimplifier
