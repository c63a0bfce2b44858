/-
Trees: a payload, or an inner node whose children are trees. The payload of the smallest
and of the greatest key are found by following first and last children.
-/
import AdaptiveRadix.Node.Membership

namespace AdaptiveRadix

/-- A payload, or a node over further trees. Nothing in the type keeps a node from having no child. -/
inductive Tree where
  | leaf (value : UInt64)
  | inner (node : Node Tree)

namespace Tree

theorem sizeOf_lt_inner {node : Node Tree} {child : Tree} (h : child ∈ node) :
    sizeOf child < sizeOf (inner node) := by
  have := Node.sizeOf_lt_of_mem h
  simp only [inner.sizeOf_spec]
  omega

def isLeaf : Tree → Bool
  | leaf _ => true
  | inner _ => false

/-- The payload of a leaf; an inner node has none of its own. -/
def value? : Tree → Option UInt64
  | leaf value => some value
  | inner _ => none

/-- The payload of the smallest key. -/
def minimum? : Tree → Option UInt64
  | leaf value => some value
  | inner node =>
    match _h : node.first? with
    | some (_, child) => child.minimum?
    | none => none
termination_by tree => sizeOf tree
decreasing_by exact sizeOf_lt_inner (Node.mem_of_first? _h)

/-- The payload of the greatest key. -/
def maximum? : Tree → Option UInt64
  | leaf value => some value
  | inner node =>
    match _h : node.last? with
    | some (_, child) => child.maximum?
    | none => none
termination_by tree => sizeOf tree
decreasing_by exact sizeOf_lt_inner (Node.mem_of_last? _h)

/-- Combines a tree from its leaves upward: an inner node takes part with the results for its
children, which stand beside their bytes in ascending order. -/
def fold {β : Type} (onLeaf : UInt64 → β) (onInner : Node Tree → List (UInt8 × β) → β) : Tree → β
  | leaf value => onLeaf value
  | inner node =>
    onInner node (node.entries.attach.map fun entry =>
      (entry.val.1, entry.val.2.fold onLeaf onInner))
termination_by tree => sizeOf tree
decreasing_by exact sizeOf_lt_inner (Node.mem_of_mem_entries entry.property)

theorem fold_leaf {β : Type} (onLeaf : UInt64 → β) (onInner : Node Tree → List (UInt8 × β) → β)
    (value : UInt64) : (leaf value).fold onLeaf onInner = onLeaf value := by
  rw [fold]

theorem fold_inner {β : Type} (onLeaf : UInt64 → β) (onInner : Node Tree → List (UInt8 × β) → β)
    (node : Node Tree) :
    (inner node).fold onLeaf onInner =
      onInner node (node.entries.map fun entry => (entry.1, entry.2.fold onLeaf onInner)) := by
  rw [fold]
  exact congrArg (onInner node) (List.attach_map_val (l := node.entries)
    (f := fun entry : UInt8 × Tree => (entry.1, entry.2.fold onLeaf onInner)))

/-- What holds of every leaf, and of an inner node when it holds of its children, holds of every
tree. -/
theorem inductionOn {p : Tree → Prop} (tree : Tree) (onLeaf : ∀ value, p (leaf value))
    (onInner : ∀ node, (∀ child ∈ node, p child) → p (inner node)) : p tree :=
  match tree with
  | leaf value => onLeaf value
  | inner node => onInner node fun child _h => inductionOn child onLeaf onInner
termination_by sizeOf tree
decreasing_by exact sizeOf_lt_inner _h

/-- The payloads in ascending order of their branch bytes. -/
def toList (tree : Tree) : List UInt64 :=
  tree.fold (fun value => [value]) fun _ below => (below.map Prod.snd).flatten

theorem toList_leaf (value : UInt64) : (leaf value).toList = [value] :=
  fold_leaf ..

theorem toList_inner (node : Node Tree) :
    (inner node).toList = node.entries.flatMap fun entry => entry.2.toList := by
  simp only [toList, fold_inner, List.map_map, List.flatMap]
  rfl

end Tree

end AdaptiveRadix
