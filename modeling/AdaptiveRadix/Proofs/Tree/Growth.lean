/-
Nodes only grow while keys are inserted, and no sooner than they have to. What this says of the
number of children is a rule about the kind of a node; insertion keeps every such rule that
begins with a fork and survives one more child, under any loader at all.
-/
import AdaptiveRadix.Proofs.Tree.Insert

namespace AdaptiveRadix

namespace Kind

/-- A rule for how many children a node of a kind has, which a fork keeps, and a node that takes one
more child, growing first when it is full. -/
structure GrowthRule (rule : Kind → Nat → Prop) : Prop where
  fork : rule .four 2
  add : ∀ {kind count}, rule kind count → count < kind.capacity → rule kind (count + 1)
  grow : ∀ {kind larger}, rule kind kind.capacity → kind.larger? = some larger →
    rule larger (kind.capacity + 1)

/-- The smallest kind with room for a number of children. -/
def suiting (count : Nat) : Kind :=
  if count ≤ 4 then .four
  else if count ≤ 16 then .sixteen
  else if count ≤ 48 then .fortyEight
  else .full

theorem suiting_succ {count : Nat} (h : count < (suiting count).capacity) :
    suiting (count + 1) = suiting count := by
  grind [suiting, capacity]

/-- A node that has only grown is of the smallest kind with room for its children. -/
theorem growthRule_suiting : GrowthRule fun kind count => 2 ≤ count ∧ kind = suiting count where
  fork := ⟨Nat.le_refl 2, rfl⟩
  add := by
    rintro _ count ⟨hle, rfl⟩ hroom
    exact ⟨hle.trans (Nat.le_succ _), (suiting_succ hroom).symm⟩
  grow := by
    intro kind larger _ hk
    cases kind <;> cases hk <;> decide

end Kind

/-- A valid layout with as many children as a rule lets a node of its kind have. -/
structure Node.Obeys {α : Type} (rule : Kind → Nat → Prop) (node : Node α) : Prop where
  layout : node.layout.Valid
  count : rule node.kind node.count

namespace Tree

variable {rule : Kind → Nat → Prop} {load : Loader} {key : Key} {value : UInt64} {tree : Tree}
  {node : Node Tree} {byte : UInt8} {depth : Nat}

/-- A node with a new child under a byte, and otherwise with the children it had. -/
theorem every_update {node' : Node Tree} {child : Tree} {p : Node Tree → Prop} (hnode : p node')
    (hfind : node'.find? = Function.update node.find? byte (some child))
    (hbelow : ∀ b child, node.find? b = some child → child.Every p) (hchild : child.Every p) :
    (inner node').Every p := by
  refine .inner hnode fun b child' hc => ?_
  rw [hfind] at hc
  by_cases hb : b = byte
  · rw [hb, Function.update_self] at hc
    exact Option.some.inj hc ▸ hchild
  · rw [Function.update_of_ne hb] at hc
    exact hbelow b child' hc

theorem every_branchOff (hrule : Kind.GrowthRule rule) {path : List UInt8} {x y : UInt8}
    (hxy : x ≠ y) {old : Tree} (hold : old.Every (Node.Obeys rule)) {events : List Event} :
    (branchOff tree path x old y value events).state.Every (Node.Obeys rule) := by
  obtain ⟨fork, heq, hvalid, -, hkind, hcount, hfind⟩ := branchOff_eq hxy tree path value events
  rw [heq]
  refine .inner ⟨hvalid.layout, by rw [hkind, hcount]; exact hrule.fork⟩ fun b child hc => ?_
  rcases (hfind b child).1 hc with ⟨-, rfl⟩ | ⟨-, rfl⟩
  · exact hold
  · exact .leaf value

theorem every_insertAtLeaf (hrule : Kind.GrowthRule rule) (existing : UInt64) :
    (insertAtLeaf load existing key depth value).state.Every (Node.Obeys rule) := by
  rw [insertAtLeaf]
  split
  · exact .leaf value
  dsimp only
  split
  · next hx hy =>
    rw [← List.getElem?_drop] at hx hy
    exact every_branchOff hrule (Key.ne_of_getElem?_commonLength hx hy) (.leaf existing)
  · exact .leaf existing

theorem every_insertInPath (hrule : Kind.GrowthRule rule) (h : (inner node).Every (Node.Obeys rule))
    (path : List UInt8) :
    (insertInPath node path (Key.commonLength path (key.drop depth)) key depth value).state.Every
      (Node.Obeys rule) := by
  cases h with
  | inner holds below =>
    rw [insertInPath]
    split
    · exact .inner holds below
    · exact .inner holds below
    · next hy hx =>
      rw [← List.getElem?_drop] at hy
      refine every_branchOff hrule (Key.ne_of_getElem?_commonLength hx hy) ?_
      exact .inner ⟨holds.layout, holds.count⟩ below

theorem every_insertInNode (hrule : Kind.GrowthRule rule) (h : (inner node).Every (Node.Obeys rule))
    (hnew : node.find? byte = none) :
    (insertInNode node byte value).state.Every (Node.Obeys rule) := by
  cases h with
  | inner holds below =>
    obtain ⟨node', events, hadd, hvalid, -, hfind, hcount, hkind⟩ :=
      Node.add_eq_ok holds.layout hnew (leaf value)
    rw [insertInNode, hadd]
    refine every_update ⟨hvalid, ?_⟩ hfind below (.leaf value)
    rcases hkind with ⟨hroom, hk, -⟩ | ⟨hfull, hk, -⟩
    · rw [hk, hcount]
      exact hrule.add holds.count hroom
    · rw [hcount, hfull]
      exact hrule.grow (hfull ▸ holds.count) hk

/-- Insertion keeps every rule of growth, whatever the loader and the answer. -/
theorem Every.insertAt (hrule : Kind.GrowthRule rule) (h : tree.Every (Node.Obeys rule)) :
    (tree.insertAt load key depth value).state.Every (Node.Obeys rule) := by
  induction h generalizing depth with
  | leaf existing =>
    rw [Tree.insertAt]
    exact every_insertAtLeaf hrule existing
  | @inner node holds below ih =>
    rw [Tree.insertAt]
    split
    · exact every_insertInPath hrule (.inner holds below) _
    split
    · exact .inner holds below
    next byte _ =>
    split
    · next hc => exact every_insertInNode hrule (.inner holds below) hc
    · next child hc =>
      obtain ⟨hvalid, hfind, hcount⟩ :=
        Node.replace_eq holds.layout (by rw [hc, Option.isSome_some])
          (child.insertAt load key _ value).state
      refine every_update ⟨hvalid, ?_⟩ hfind below (ih byte child hc)
      rw [Node.kind_replace, hcount]
      exact holds.count

end Tree

end AdaptiveRadix
