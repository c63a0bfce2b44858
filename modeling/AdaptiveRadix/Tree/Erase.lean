/-
Erasing a key. The descent compares the stored bytes of the paths only, and the leaf it
arrives at settles the rest. The node that loses the leaf shrinks, or, left with one
child, gives way to it: the child's path then begins with the node's own.
-/
import AdaptiveRadix.Event
import AdaptiveRadix.Node.Resize
import AdaptiveRadix.Tree.Basic

namespace AdaptiveRadix.Tree

/-- The tree after an attempt to erase, and the payload that was erased if there was one. -/
abbrev Erasure := Outcome Tree Event (Option UInt64)

/-- A tree one branch higher up: the path and the byte that led to it go before its own path. -/
def lift (path : Path) (byte : UInt8) : Tree → Tree
  | leaf value => leaf value
  | inner node => inner { node with path := .join path byte node.path }

/-- The tree that is to stand where a node has lost a child. -/
def settle (node : Node Tree) : Tree × List Event :=
  if node.shouldShrink then (inner node.shrink.1, node.shrink.2)
  else if node.kind = .four ∧ node.count = 1 then
    match node.first? with
    | some (byte, child) => (child.lift node.path byte, [.collapsed byte])
    | none => (inner node, [])
  else (inner node, [])

/-- Erases a key from a tree whose keys agree with it up to a depth. A leaf is erased by the node
above it, so a leaf by itself stays. -/
def eraseAt (load : Loader) (tree : Tree) (key : Key) (depth : Nat) : Erasure :=
  match tree with
  | leaf value => .unchanged (leaf value) none
  | inner node =>
    if !node.path.inline.isPrefixOf (key.drop depth) then .unchanged (inner node) none
    else match _h : key[depth + node.path.length]? with
      | none => .unchanged (inner node) none
      | some byte =>
        match node.find? byte with
        | none => .unchanged (inner node) none
        | some (leaf value) =>
          if load value = key then
            ⟨(settle (node.remove byte).2).1, some value, (settle (node.remove byte).2).2⟩
          else .unchanged (inner node) none
        | some (inner child) =>
          (eraseAt load (inner child) key (depth + node.path.length + 1)).within fun child =>
            inner (node.replace byte child)
termination_by key.length - depth
decreasing_by
  have := (List.getElem?_eq_some_iff.1 _h).1
  omega

end AdaptiveRadix.Tree
