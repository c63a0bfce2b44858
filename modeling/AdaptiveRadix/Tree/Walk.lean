/-
Walking through a tree payload by payload. The walk keeps a stack of the trees it has
still to go through; a node on top gives way to its children, the last one pushed first.
-/
import AdaptiveRadix.Tree.Basic

namespace AdaptiveRadix

/-- The number of steps it takes to walk through a tree: one for every leaf and every node. -/
def Tree.steps : Tree → Nat
  | .leaf _ => 1
  | .inner node => (node.descending.attach.map fun entry => entry.val.2.steps).foldr (· + ·) 1
termination_by tree => sizeOf tree
decreasing_by exact sizeOf_lt_inner (Node.mem_of_mem_descending entry.property)

theorem Tree.steps_leaf (value : UInt64) : (leaf value).steps = 1 := by
  rw [steps]

theorem Tree.steps_inner (node : Node Tree) :
    (inner node).steps = (node.descending.map fun entry => entry.2.steps).foldr (· + ·) 1 := by
  rw [steps, List.attach_map_val (l := node.descending) (f := fun entry : UInt8 × Tree =>
    entry.2.steps)]

/-- Where a walk stands: the trees still to go through, the next one first. -/
structure Walk where
  pending : List Tree

namespace Walk

def ofTree (tree : Tree) : Walk :=
  ⟨[tree]⟩

/-- Puts children before what is pending, one after another, so that the last of them comes first. -/
def push (children : List (UInt8 × Tree)) (pending : List Tree) : List Tree :=
  children.foldl (fun pending entry => entry.2 :: pending) pending

/-- How many steps the walk still takes. -/
def steps (pending : List Tree) : Nat :=
  (pending.map Tree.steps).foldr (· + ·) 0

theorem steps_cons (tree : Tree) (pending : List Tree) :
    steps (tree :: pending) = tree.steps + steps pending := rfl

theorem steps_push (children : List (UInt8 × Tree)) (pending : List Tree) :
    steps (push children pending) + 1 =
      (children.map fun entry => entry.2.steps).foldr (· + ·) 1 + steps pending := by
  induction children generalizing pending with
  | nil => exact Nat.add_comm ..
  | cons entry children ih =>
    have := ih (entry.2 :: pending)
    rw [steps_cons] at this
    simp only [push, List.foldl_cons, List.map_cons, List.foldr_cons] at this ⊢
    omega

theorem steps_push_lt (node : Node Tree) (pending : List Tree) :
    steps (push node.descending pending) < steps (.inner node :: pending) := by
  have := steps_push node.descending pending
  rw [steps_cons, Tree.steps_inner]
  omega

/-- The next payload, if there is one, and the trees that are pending after it. -/
def nextOf : List Tree → Option UInt64 × List Tree
  | [] => (none, [])
  | .leaf value :: pending => (some value, pending)
  | .inner node :: pending => nextOf (push node.descending pending)
termination_by pending => steps pending
decreasing_by exact steps_push_lt node pending

theorem steps_nextOf_lt {pending rest : List Tree} {value : UInt64}
    (h : nextOf pending = (some value, rest)) : steps rest < steps pending := by
  fun_induction nextOf pending with
  | case1 => simp at h
  | case2 value pending =>
    obtain ⟨-, rfl⟩ := Prod.mk.inj h
    rw [steps_cons, Tree.steps_leaf]
    omega
  | case3 node pending ih => exact Nat.lt_trans (ih h) (steps_push_lt node pending)

/-- The next payload, if there is one, and the walk after it. -/
def next (walk : Walk) : Option UInt64 × Walk :=
  ((nextOf walk.pending).1, ⟨(nextOf walk.pending).2⟩)

/-- All the payloads to come. -/
def toList (walk : Walk) : List UInt64 :=
  match _h : walk.next with
  | (some value, rest) => value :: rest.toList
  | (none, _) => []
termination_by steps walk.pending
decreasing_by
  obtain ⟨hv, rfl⟩ := Prod.mk.inj _h
  exact steps_nextOf_lt (Prod.ext hv rfl)

end Walk

/-- The payloads in the order in which a walk meets them. -/
def Tree.payloads (tree : Tree) : List UInt64 :=
  (Walk.ofTree tree).toList

end AdaptiveRadix
