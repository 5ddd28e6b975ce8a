import ScriptSimplifier.Syntax.Tree

/-! # Listings of a tree

A listing names every node and list of a tree in pre-order, each with its depth.  It is drawn with
one line per entry and branches along the left edge. -/

namespace ScriptSimplifier

/-- A line of a listing: a depth and what is shown there. -/
structure Entry where
  depth : Nat
  text : Text
  deriving Repr, DecidableEq

mutual

/-- The listing of an element at a depth, after a heading.  A list with an absent item has no
listing. -/
def Tree.listing? (heading : Text) (depth : Nat) : Tree → Option (List Entry)
  | .node label children => do
    let below ← fieldListing? depth label.fields children
    return ⟨depth, heading ++ label.caption⟩ :: below
  | _ => none

/-- The listing of the fields of a node at a depth; empty fields do not show. -/
def fieldListing? (depth : Nat) : List Field → List Tree → Option (List Entry)
  | f :: fields, child :: children => do
    let name := Text.ofString f.name
    let here ←
      match child with
      | .missing => some []
      | .list items =>
        let count := Text.ofString " [" ++ Text.ofNat items.length ++ Text.ofString "]"
        (itemListing? (depth + 2) items).map (⟨depth + 1, name ++ count⟩ :: ·)
      | .node label below =>
        let heading := name ++ Text.ofString ": " ++ label.caption
        (fieldListing? (depth + 1) label.fields below).map (⟨depth + 1, heading⟩ :: ·)
    let rest ← fieldListing? depth fields children
    return here ++ rest
  | _, _ => some []

/-- The listing of list items at a depth. -/
def itemListing? (depth : Nat) : List Tree → Option (List Entry)
  | [] => some []
  | item :: rest => do
    let here ← item.listing? [] depth
    let entries ← itemListing? depth rest
    return here ++ entries

end

/-- The listing of a whole tree. -/
def Tree.entries? (t : Tree) : Option (List Entry) := t.listing? [] 0

/-! ## Drawing -/

namespace Listing

/-- Whether an entry at a depth is followed by a sibling before the listing returns to a lesser
depth. -/
def hasSibling (depth : Nat) : List Entry → Bool
  | [] => false
  | next :: rest =>
    if next.depth = depth then true
    else if next.depth < depth then false
    else hasSibling depth rest

/-- Draws entries, given for each lesser depth whether more siblings follow there. -/
def drawFrom : (open_ : List Bool) → List Entry → Text
  | _, [] => []
  | open_, entry :: rest =>
    let above := open_.take entry.depth
    let edge := above.flatMap fun more => Text.ofString (if more then "│ " else "  ")
    let more := hasSibling entry.depth rest
    let corner := Text.ofString (if more then "├" else "└")
    let parent := rest.head?.any (entry.depth < ·.depth)
    let arm := Text.ofString (if parent then "─┬" else "──")
    edge ++ corner ++ arm ++ entry.text ++ Text.ofString "\n" ++ drawFrom (above ++ [more]) rest

/-- The drawing of a listing, one line per entry and an empty line at the end. -/
def draw (entries : List Entry) : Text := drawFrom [] entries ++ Text.ofString "\n"

end Listing

end ScriptSimplifier
