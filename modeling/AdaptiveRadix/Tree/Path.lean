/-
The whole path of a node. What the node does not store of it is read in the key of the
smallest leaf below, past the bytes above the node; any leaf below would do as well.
-/
import AdaptiveRadix.Tree.Basic

namespace AdaptiveRadix

/-- The path of a node that begins at a depth. It comes out shorter than its length when the key it
is read in ends too soon. -/
def Node.fullPath (load : Loader) (node : Node Tree) (depth : Nat) : List UInt8 :=
  if node.path.isTruncated then
    (((Tree.inner node).minimum?.elim [] load).drop depth).take node.path.length
  else node.path.inline

end AdaptiveRadix
