/-
Trees as texts: one line for a node or leaf, and the whole tree with a line for each and
the children of a node four places further in than the node.
-/
import AdaptiveRadix.Tree.Basic
import AdaptiveRadix.Text.Quoted

namespace AdaptiveRadix

/-- A visible ASCII character stands for itself, any other byte for its digits. -/
def Text.byteLabel (byte : UInt8) : String :=
  if 0x21 ≤ byte ∧ byte ≤ 0x7E then (Char.ofNat byte.toNat).toString
  else Text.hexadecimalByte byte

/-- The node by itself: its kind, path, and the bytes of its children. -/
def Node.text {α : Type} (node : Node α) : String :=
  let keys := ", ".intercalate (node.entries.map fun entry => toString entry.1.toNat)
  node.kind.name ++ " \x7b prefix: " ++ node.path.text ++
    s!", num_children: {node.count}, keys: [{keys}] \x7d"

namespace Tree

/-- The top of the tree by itself. -/
def text : Tree → String
  | leaf value => s!"Leaf({value})"
  | inner node => node.text

/-- The lines of a node and of the trees below it, whose lines are given for any indentation. -/
def dumpInner (node : Node Tree) (below : List (UInt8 × (Nat → String))) (indent : Nat) : String :=
  let pad := String.join (List.replicate indent "  ")
  pad ++ node.kind.name ++ " (prefix=" ++ node.path.text ++ s!", children={node.count})\n" ++
    String.join (below.map fun (byte, lines) =>
      pad ++ s!"  [{Text.byteLabel byte}] ->\n" ++ lines (indent + 2))

/-- The lines of a tree at an indentation. -/
def dump (tree : Tree) : Nat → String :=
  tree.fold
    (fun value indent => String.join (List.replicate indent "  ") ++ s!"Leaf({value})\n")
    dumpInner

end Tree

end AdaptiveRadix
