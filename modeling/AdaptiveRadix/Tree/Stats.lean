/-
What a tree is made of: how many nodes of each kind, how many leaves, and how many nodes
lie one above another at most. What a node takes up in memory is not counted; that is for the
layout of the data to say, and nothing here depends on it.
-/
import AdaptiveRadix.Tree.Basic

namespace AdaptiveRadix

structure Stats where
  four : Nat
  sixteen : Nat
  fortyEight : Nat
  full : Nat
  leaves : Nat
  height : Nat
deriving DecidableEq, Repr

namespace Stats

/-- Of no tree at all. -/
def zero : Stats :=
  ⟨0, 0, 0, 0, 0, 0⟩

def leaf : Stats :=
  { zero with leaves := 1 }

/-- Of two trees side by side. -/
def beside (s t : Stats) : Stats where
  four := s.four + t.four
  sixteen := s.sixteen + t.sixteen
  fortyEight := s.fortyEight + t.fortyEight
  full := s.full + t.full
  leaves := s.leaves + t.leaves
  height := max s.height t.height

/-- Of the trees below a node, together with the node. -/
def under (kind : Kind) (s : Stats) : Stats :=
  let raised := { s with height := s.height + 1 }
  match kind with
  | .four => { raised with four := s.four + 1 }
  | .sixteen => { raised with sixteen := s.sixteen + 1 }
  | .fortyEight => { raised with fortyEight := s.fortyEight + 1 }
  | .full => { raised with full := s.full + 1 }

/-- The number of inner nodes. -/
def nodes (s : Stats) : Nat :=
  s.four + s.sixteen + s.fortyEight + s.full

end Stats

def Tree.stats (tree : Tree) : Stats :=
  tree.fold (fun _ => Stats.leaf) fun node below =>
    ((below.map Prod.snd).foldl Stats.beside Stats.zero).under node.kind

end AdaptiveRadix
