import PChop.ExecutionState

/-!
# The prefix tree

`PrefixTree` (`lib/Core/PrefixTree.{h,cpp}`) indexes the branch histories of the states a
worker suspends while ranging. A character `0` goes to the left child and every other
character to the right one. `getPathToResume` follows a path as long as the tree has the
child it asks for and returns the part it could follow, written over `01`.
-/

namespace PChop

/-- `PrefixTree::Node`: a node and its two optional children. -/
inductive PrefixTree where
  | node (left right : Option PrefixTree)

namespace PrefixTree

/-- The tree of a fresh `PrefixTree`: a root without children. -/
def empty : PrefixTree := node none none

/-- `PrefixTree::addToTree`: create the missing nodes of a path. -/
def addToTree : PrefixTree → List Char → PrefixTree
  | t, [] => t
  | node l r, c :: cs =>
    if c = '0' then node (some (addToTree (l.getD empty) cs)) r
    else node l (some (addToTree (r.getD empty) cs))

/-- `PrefixTree::getPathToResume`: the longest part of the path the tree holds. -/
def getPathToResume : PrefixTree → List Char → List Char
  | _, [] => []
  | node l r, c :: cs =>
    if c = '0' then
      match l with
      | some t => '0' :: getPathToResume t cs
      | none => []
    else
      match r with
      | some t => '1' :: getPathToResume t cs
      | none => []

end PrefixTree

end PChop
