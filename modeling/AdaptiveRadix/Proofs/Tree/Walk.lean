/-
The walk through a tree, call by call. Whatever trees are pending, a call gives out the first of
their payloads and leaves the others, in a bounded number of rounds; so the calls, counted from
the first, give out the payloads of the tree in their order, and nothing once all are out.
-/
import AdaptiveRadix.Proofs.Tree.Depth

namespace AdaptiveRadix

namespace Tree

variable {tree : Tree} {node : Node Tree} {p q : Node Tree → Prop}

/-! ## The payloads in order -/

/-- The payloads of a tree in order: a leaf has its own, and a node has those of its children, one child
after another in ascending order of their bytes. -/
inductive InOrder : Tree → List UInt64 → Prop
  | leaf (value : UInt64) : InOrder (.leaf value) [value]
  | inner {node : Node Tree} {below : UInt8 → List UInt64}
      (child : ∀ byte child, node.find? byte = some child → InOrder child (below byte))
      (absent : ∀ byte, node.find? byte = none → below byte = []) :
      InOrder (.inner node) (Probe.allBytes.flatMap below)

theorem toList_inner_of_valid (h : node.layout.Valid) :
    (inner node).toList = Probe.allBytes.flatMap fun byte => (node.find? byte).elim [] toList := by
  have hentries : node.entries = Probe.entries node.find? := h.entries_eq
  rw [toList_inner, hentries, Probe.entries, List.filterMap_eq_flatMap_toList, List.flatMap_assoc]
  refine List.flatMap_congr fun byte _ => ?_
  cases node.find? byte with
  | none => rfl
  | some child => exact List.flatMap_singleton ..

theorem Every.inOrder (h : tree.Every (·.layout.Valid)) : tree.InOrder tree.toList := by
  induction h with
  | leaf value =>
    rw [toList_leaf]
    exact .leaf value
  | @inner node holds _ ih =>
    rw [toList_inner_of_valid holds]
    refine .inner (fun byte child hc => ?_) fun byte hnone => ?_
    · rw [hc]
      exact ih byte child hc
    · rw [hnone]
      rfl

theorem foldr_add_eq (l : List Nat) (n : Nat) : l.foldr (· + ·) n = l.sum + n := by
  have hzero : l.foldr (· + ·) (0 + n) = l.foldr (· + ·) 0 + n := List.foldr_assoc
  rw [List.sum_eq_foldr, ← hzero, Nat.zero_add]

/-- A walk takes one step for each leaf of the tree and one for each node. -/
theorem Every.steps_eq (h : tree.Every (·.layout.Valid)) :
    tree.steps = tree.stats.leaves + tree.stats.nodes := by
  induction h with
  | leaf value =>
    rw [steps_leaf, stats_leaf]
    rfl
  | @inner node holds _ ih =>
    have hchildren : (node.entries.map fun entry => entry.2.steps) =
        node.entries.map fun entry => entry.2.stats.leaves + entry.2.stats.nodes :=
      List.map_congr_left fun entry he => ih _ _ ((Node.mem_entries holds).1 he)
    rw [steps_inner, foldr_add_eq, Node.descending_eq holds, List.map_reverse,
      List.sum_reverse_nat, hchildren, List.sum_map_add, leaves_stats_inner, nodes_stats_inner,
      Nat.add_assoc]

theorem Every.and (hp : tree.Every p) (hq : tree.Every q) :
    tree.Every fun node => p node ∧ q node := by
  induction hp with
  | leaf value => exact .leaf value
  | inner holds _ ih =>
    cases hq with
    | inner holds' below =>
      exact .inner ⟨holds, holds'⟩ fun byte child hc => ih byte child hc (below byte child hc)

end Tree

namespace Walk

variable {pending : List Tree} {rounds : Nat}

/-! ## One call -/

/-- One round of a call: a leaf is the answer, and a node gives way to its children, after which `call`
has to go on. -/
def round (call : List Tree → Option (Option UInt64 × List Tree)) :
    List Tree → Option (Option UInt64 × List Tree)
  | [] => some (none, [])
  | .leaf value :: pending => some (some value, pending)
  | .inner node :: pending => call (push node.descending pending)

/-- A call is over after as many rounds as there are steps left. -/
theorem nested_round (h : steps pending < rounds) :
    nested round rounds pending = some (nextOf pending) := by
  induction rounds generalizing pending with
  | zero => exact absurd h (Nat.not_lt_zero _)
  | succ rounds ih =>
    match pending with
    | [] => rw [nested, round, nextOf]
    | .leaf value :: pending => rw [nested, round, nextOf]
    | .inner node :: pending =>
      have hlt := steps_push_lt node pending
      rw [nested, round, nextOf]
      exact ih (by omega)

theorem steps_nextOf_le (pending : List Tree) : steps (nextOf pending).2 ≤ steps pending := by
  fun_induction nextOf pending with
  | case1 => exact Nat.le_refl _
  | case2 value pending => exact Nat.le_add_left ..
  | case3 node pending ih => exact ih.trans (steps_push_lt node pending).le

/-! ## Call after call -/

/-- The walk after a number of calls. -/
def after (walk : Walk) : Nat → Walk
  | 0 => walk
  | calls + 1 => walk.next.2.after calls

theorem steps_after_le (walk : Walk) (calls : Nat) :
    steps (walk.after calls).pending ≤ steps walk.pending := by
  induction calls generalizing walk with
  | zero => exact Nat.le_refl _
  | succ calls ih => exact (ih walk.next.2).trans (steps_nextOf_le walk.pending)

/-- A call answers the payload whose turn it is. -/
theorem next_after {walk : Walk} (h : ∀ tree ∈ walk.pending, tree.Every (·.layout.Valid))
    (calls : Nat) :
    (walk.after calls).next.1 = (walk.pending.flatMap Tree.toList)[calls]? := by
  induction calls generalizing walk with
  | zero => exact (nextOf_eq h).1.trans List.head?_eq_getElem?
  | succ calls ih =>
    obtain ⟨-, hrest, hvalid⟩ := nextOf_eq h
    rw [after, ih hvalid]
    show ((nextOf walk.pending).2.flatMap Tree.toList)[calls]? = _
    rw [hrest, List.getElem?_tail]

end Walk

namespace Tree

/-- Walking through a tree whose nodes are in order, whether or not they all have children: each call
answers the next of the payloads in their order, and none once all are out, in no more rounds than
the tree has leaves and nodes and one more. Where no node is without children, the payloads that
the two ends of the tree are followed to are the first and the last of them. -/
theorem Every.walk_in_order {tree : Tree} (h : tree.Every (·.layout.Valid)) :
    tree.InOrder tree.toList ∧ tree.payloads = tree.toList ∧
    (∀ calls, ((Walk.ofTree tree).after calls).next.1 = tree.toList[calls]?) ∧
    (∀ calls rounds, tree.stats.leaves + tree.stats.nodes < rounds →
      let walk := (Walk.ofTree tree).after calls
      nested Walk.round rounds walk.pending = some (walk.next.1, walk.next.2.pending)) ∧
    (tree.Every (·.entries ≠ []) →
      tree.toList ≠ [] ∧ tree.minimum? = tree.toList.head? ∧
        tree.maximum? = tree.toList.getLast?) := by
  refine ⟨h.inOrder, h.payloads_eq, fun calls => ?_, fun calls rounds hrounds => ?_, fun hne => ?_⟩
  · have hwalk : ∀ t ∈ (Walk.ofTree tree).pending, t.Every (·.layout.Valid) :=
      fun t ht => List.mem_singleton.1 ht ▸ h
    rw [Walk.next_after hwalk]
    exact congrArg (·[calls]?) (List.flatMap_singleton ..)
  · -- The steps left only become fewer, and at first they are those of the whole tree.
    have hsteps : Walk.steps (Walk.ofTree tree).pending = tree.steps := rfl
    have hle := Walk.steps_after_le (.ofTree tree) calls
    rw [hsteps, h.steps_eq] at hle
    exact Walk.nested_round (Nat.lt_of_le_of_lt hle hrounds)
  · have hinhabited : tree.Every Inhabited := h.and hne
    exact ⟨hinhabited.toList_ne_nil, hinhabited.minimum?_eq, hinhabited.maximum?_eq⟩

/-! ## A tree with an empty node -/

variable {p : Node Tree → Prop} {path : Path} {kind : Kind} {entries : List (UInt8 × Tree)}

theorem every_ofEntries (hs : entries.Pairwise (·.1 < ·.1)) (hlen : entries.length ≤ kind.capacity)
    (hp : (Layout.ofEntries kind entries).Valid → p ⟨path, .ofEntries kind entries⟩)
    (hbelow : ∀ entry ∈ entries, entry.2.Every p) :
    (inner ⟨path, .ofEntries kind entries⟩).Every p :=
  .inner (hp (Layout.valid_ofEntries hs hlen)) fun byte child hc =>
    hbelow (byte, child) ((Layout.find?_ofEntries hs hlen).1 hc)

theorem toList_ofEntries (hs : entries.Pairwise (·.1 < ·.1))
    (hlen : entries.length ≤ kind.capacity) :
    (inner ⟨path, .ofEntries kind entries⟩).toList = entries.flatMap fun entry => entry.2.toList := by
  rw [toList_inner, Node.entries, Layout.entries_ofEntries hs hlen]

/-- Two leaves under a path of one byte. -/
def copse : Tree :=
  inner ⟨.ofBytes [1], .ofEntries .four [(1, leaf 2), (255, leaf 9)]⟩

theorem inhabited_copse : copse.Every Inhabited := by
  refine every_ofEntries (by decide) (by decide) (fun hv => ⟨hv, List.cons_ne_nil _ _⟩) ?_
  simp only [List.forall_mem_cons, List.not_mem_nil, false_imp_iff, implies_true, and_true]
  exact ⟨.leaf 2, .leaf 9⟩

theorem toList_copse : copse.toList = [2, 9] := by
  rw [copse, toList_ofEntries (by decide) (by decide)]
  simp only [List.flatMap_cons, List.flatMap_nil, toList_leaf, List.cons_append, List.nil_append]

/-- A leaf, a node without children, and two leaves under another node. -/
def grove : Tree :=
  inner ⟨.ofBytes [], .ofEntries .fortyEight
    [(0, leaf 4), (7, inner (.empty (.ofBytes []))), (8, copse)]⟩

theorem valid_grove : grove.Every (·.layout.Valid) := by
  refine every_ofEntries (by decide) (by decide) id ?_
  simp only [List.forall_mem_cons, List.not_mem_nil, false_imp_iff, implies_true, and_true]
  refine ⟨.leaf 4, .inner (Node.layout_empty_valid _) fun byte child hc => ?_,
    inhabited_copse.imp fun _ hn => hn.1⟩
  rw [Node.find?_empty] at hc
  cases hc

theorem toList_grove : grove.toList = [4, 2, 9] := by
  have hempty : (inner (.empty (.ofBytes []))).toList = [] :=
    toList_ofEntries .nil (Nat.zero_le _)
  rw [grove, toList_ofEntries (by decide) (by decide)]
  simp only [List.flatMap_cons, List.flatMap_nil, toList_leaf, hempty, toList_copse,
    List.cons_append, List.nil_append]

/-- Five calls on the tree with the empty node, and the ends of a tree without one. -/
theorem grove_walked :
    (grove.Every (·.layout.Valid) ∧
      (List.range 5).map (fun calls => ((Walk.ofTree grove).after calls).next.1) =
        [some 4, some 2, some 9, none, none]) ∧
    copse.Every (·.entries ≠ []) ∧ copse.minimum? = some 2 ∧ copse.maximum? = some 9 := by
  have hvalid : copse.Every (·.layout.Valid) := inhabited_copse.imp fun _ hn => hn.1
  have hchildren : copse.Every (·.entries ≠ []) := inhabited_copse.imp fun _ hn => hn.2
  obtain ⟨-, -, hcalls, -, -⟩ := Every.walk_in_order valid_grove
  obtain ⟨-, -, -, -, hends⟩ := Every.walk_in_order hvalid
  obtain ⟨-, hmin, hmax⟩ := hends hchildren
  rw [toList_copse] at hmin hmax
  refine ⟨⟨valid_grove, ?_⟩, hchildren, hmin, hmax⟩
  simp only [hcalls, toList_grove]
  rfl

end Tree

end AdaptiveRadix
