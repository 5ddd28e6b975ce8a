import ScriptSimplifier.Syntax.Tree

/-! # Valid trees

A tree is valid if it obeys the schema: required fields are present, list fields hold a list, and
every child belongs to the category that its field accepts.  `Tree.violations` lists every place
where it does not. -/

namespace ScriptSimplifier

/-- What is wrong at a place of a tree. -/
inductive Problem where
  | notList
  | absentItem
  | wrongItem (found : Kind) (expected : Category)
  | required
  | wrongChild (found : Text) (expected : Category)
  deriving Repr, DecidableEq

/-- A place of a tree, by the path from the root, and what is wrong there. -/
structure Violation where
  path : Text
  problem : Problem
  deriving Repr, DecidableEq

namespace Violation

/-- What every report of an invalid tree starts with. -/
def reason : Text := "invalid tree"

/-- The text of a violation. -/
def message (v : Violation) : Text :=
  let about (t : Text) : Text := reason ++ Text.ofString ": " ++ v.path ++ Text.ascii ' ' :: t
  match v.problem with
  | .notList => about "is not a list"
  | .absentItem => about "is nil"
  | .wrongItem found expected =>
    about (Text.ofString "is " ++ found.name ++ Text.ofString ", expected " ++ expected.name)
  | .required => about "is required"
  | .wrongChild found expected =>
    about (Text.ofString "holds " ++ found ++ Text.ofString ", expected " ++ expected.name)

end Violation

mutual

/-- The violations at and below a node that stands at a path. -/
def Tree.violationsAt (path : Text) : Tree → List Violation
  | .node label children => fieldViolations path label.fields children
  | _ => []

/-- The violations in the fields of a node. -/
def fieldViolations (path : Text) : List Field → List Tree → List Violation
  | f :: fields, child :: children =>
    let place := path ++ Text.ascii '.' :: Text.ofString f.name
    let here : List Violation :=
      match child with
      | .missing =>
        if f.isList then [⟨place, .notList⟩]
        else if f.optional then []
        else [⟨place, .required⟩]
      | .list items =>
        if f.isList then itemViolations place f.accepts 0 items
        else [⟨place, .wrongChild child.typeName f.accepts⟩]
      | .node label below =>
        if f.isList then [⟨place, .notList⟩]
        else if f.accepts.accepts label.kind then fieldViolations place label.fields below
        else [⟨place, .wrongChild child.typeName f.accepts⟩]
    here ++ fieldViolations path fields children
  | _, _ => []

/-- The violations in the items of a list, the first of which has the given index. -/
def itemViolations (path : Text) (expected : Category) (index : Nat) :
    List Tree → List Violation
  | [] => []
  | item :: rest =>
    let place := path ++ Text.ascii '[' :: Text.ofNat index ++ [Text.ascii ']']
    let here : List Violation :=
      match item with
      | .node label below =>
        if expected.accepts label.kind then fieldViolations place label.fields below
        else [⟨place, .wrongItem label.kind expected⟩]
      | _ => [⟨place, .absentItem⟩]
    here ++ itemViolations path expected (index + 1) rest

end

/-- Every place where a tree does not obey the schema. -/
def Tree.violations (t : Tree) : List Violation :=
  match t with
  | .node label _ => t.violationsAt label.kind.name
  | _ => []

/-- Why a tree is not valid. -/
inductive Invalid where
  | empty
  | violating (violations : List Violation)
  deriving Repr, DecidableEq

/-- The texts of everything that is wrong with a tree. -/
def Invalid.points : Invalid → List Text
  | .empty => [Violation.reason ++ Text.ofString ": tree is empty"]
  | .violating violations => violations.map Violation.message

/-- The text for an invalid tree: it counts the violations and lists them. -/
def Invalid.message : Invalid → Text
  | .empty => Invalid.empty.points.flatten
  | .violating violations =>
    let count : Text :=
      if violations.length = 1 then "1 error occurred:"
      else Text.ofNat violations.length ++ Text.ofString " errors occurred:"
    let points := violations.flatMap fun v => Text.ofString "\n\t* " ++ v.message
    count ++ points ++ Text.ofString "\n\n"

/-- Why a tree is not valid, if it is not. -/
def Tree.invalid? (t : Tree) : Option Invalid :=
  match t with
  | .missing => some .empty
  | t => if t.violations.isEmpty then none else some (.violating t.violations)

end ScriptSimplifier
