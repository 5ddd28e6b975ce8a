import ScriptSimplifier.Syntax.Source
import ScriptSimplifier.Text.Digest

/-! # Fingerprints

A fingerprint is a digest of a tree's snapshot: its source and the kinds of its nodes in
pre-order.  The kinds distinguish trees that share a source, such as a negative literal and the
negation of a positive one. -/

namespace ScriptSimplifier

mutual

/-- The kinds of an element in pre-order.  Brackets enclose the items of a list and a dash stands
for an empty place. -/
def Tree.kinds : Tree → List Text
  | .missing => [Text.ofString "-"]
  | .node label children => label.kind.name :: kindsOfAll children
  | .list items => Text.ofString "[" :: (kindsOfAll items ++ [Text.ofString "]"])

/-- The kinds of elements in a row. -/
def kindsOfAll : List Tree → List Text
  | [] => []
  | t :: rest => t.kinds ++ kindsOfAll rest

end

/-- What a fingerprint is computed from; a tree without source has none. -/
def Tree.snapshot? (t : Tree) : Option Text :=
  t.source?.map fun source =>
    let kinds := t.kinds.map fun k => Text.ascii '"' :: (k ++ [Text.ascii '"'])
    Text.ofString "\x7bKinds:[" ++ Text.join "," kinds ++ Text.ofString "],Source:\"" ++ source ++
      Text.ofString "\"\x7d"

/-- The fingerprint of a tree. -/
def Tree.fingerprint? (t : Tree) : Option Text :=
  t.snapshot?.map fun snapshot => Text.ofString "v1_" ++ snapshot.md5

end ScriptSimplifier
