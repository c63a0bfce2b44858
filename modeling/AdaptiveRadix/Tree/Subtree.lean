/-
The part of a tree that holds the keys with a given beginning. The descent compares
stored bytes only; all keys of the tree it ends at share every byte passed on the way, so
one of them shows whether they begin as asked.
-/
import AdaptiveRadix.Tree.Basic

namespace AdaptiveRadix.Tree

/-- Follows the beginning of a key from a depth on, as far as it goes. -/
def follow? (tree : Tree) (start : Key) (depth : Nat) : Option Tree :=
  match tree with
  | leaf value => some (leaf value)
  | inner node =>
    if start.length ≤ depth then some (inner node)
    else
      let inline := node.path.inline
      let rest := start.drop depth
      if inline.take rest.length ≠ rest.take inline.length then none
      else match _h : start[depth + node.path.length]? with
        | none => some (inner node)
        | some byte =>
          (node.find? byte).bind fun child => follow? child start (depth + node.path.length + 1)
termination_by start.length - depth
decreasing_by
  have := (List.getElem?_eq_some_iff.1 _h).1
  omega

/-- The subtree of the keys with a given beginning, if there is such a key. -/
def subtree? (load : Loader) (tree : Tree) (start : Key) : Option Tree :=
  (tree.follow? start 0).bind fun below =>
    below.minimum?.bind fun value =>
      if start.isPrefixOf (load value) then some below else none

end AdaptiveRadix.Tree
