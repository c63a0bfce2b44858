/-
What the statistics of a tree say of its payloads. Leaves are payloads. Where every node has two
children at least, the nodes are fewer than the leaves, for each node only joins trees that
have leaves of their own. A tree is no higher than it has nodes; and it is no higher than its keys
are long, for each node on the way to a leaf takes its path and one more byte of the leaf's key.
-/
import AdaptiveRadix.Proofs.Tree.Fits
import AdaptiveRadix.Tree.Stats

namespace AdaptiveRadix

/-! ## Trees side by side -/

namespace Stats

variable {stats : List Stats} {s t : Stats} {n : Nat}

/-- A count of trees side by side is the sum of their counts. -/
theorem foldl_beside (count : Stats → Nat)
    (hbeside : ∀ s t, count (s.beside t) = count s + count t) (stats : List Stats) (s : Stats) :
    count (stats.foldl beside s) = count s + (stats.map count).sum := by
  induction stats generalizing s with
  | nil => rfl
  | cons t stats ih =>
    rw [List.foldl_cons, ih, hbeside, List.map_cons, List.sum_cons, Nat.add_assoc]

theorem nodes_beside (s t : Stats) : (s.beside t).nodes = s.nodes + t.nodes := by
  simp only [nodes, beside]
  omega

/-- Trees side by side are as high as the highest of them. -/
theorem height_foldl_beside_le_iff :
    (stats.foldl beside s).height ≤ n ↔ s.height ≤ n ∧ ∀ t ∈ stats, t.height ≤ n := by
  induction stats generalizing s with
  | nil => simp
  | cons t stats ih =>
    rw [List.foldl_cons, ih, List.forall_mem_cons, ← and_assoc]
    exact and_congr_left' Nat.max_le

/-! ## Trees below a node -/

theorem leaves_under (kind : Kind) (s : Stats) : (s.under kind).leaves = s.leaves := by
  cases kind <;> rfl

theorem height_under (kind : Kind) (s : Stats) : (s.under kind).height = s.height + 1 := by
  cases kind <;> rfl

theorem nodes_under (kind : Kind) (s : Stats) : (s.under kind).nodes = s.nodes + 1 := by
  cases kind <;> simp only [nodes, under] <;> omega

end Stats

namespace Tree

variable {load : Loader} {above : Key} {tree child : Tree} {node : Node Tree} {byte : UInt8}
  {n : Nat}

theorem stats_leaf (value : UInt64) : (leaf value).stats = .leaf :=
  fold_leaf ..

theorem stats_inner (node : Node Tree) :
    (inner node).stats =
      ((node.entries.map fun entry => entry.2.stats).foldl Stats.beside Stats.zero).under
        node.kind := by
  rw [stats, fold_inner, List.map_map]
  rfl

theorem leaves_stats_inner (node : Node Tree) :
    (inner node).stats.leaves = (node.entries.map fun entry => entry.2.stats.leaves).sum := by
  rw [stats_inner, Stats.leaves_under, Stats.foldl_beside Stats.leaves fun _ _ => rfl,
    List.map_map]
  exact Nat.zero_add _

theorem nodes_stats_inner (node : Node Tree) :
    (inner node).stats.nodes = (node.entries.map fun entry => entry.2.stats.nodes).sum + 1 := by
  rw [stats_inner, Stats.nodes_under, Stats.foldl_beside Stats.nodes Stats.nodes_beside,
    List.map_map]
  exact congrArg (· + 1) (Nat.zero_add _)

/-- A node is one higher than its highest child. -/
theorem height_stats_inner_le_iff :
    (inner node).stats.height ≤ n + 1 ↔ ∀ entry ∈ node.entries, entry.2.stats.height ≤ n := by
  rw [stats_inner, Stats.height_under, Nat.add_le_add_iff_right, Stats.height_foldl_beside_le_iff,
    List.forall_mem_map]
  exact and_iff_right (Nat.zero_le n)

theorem height_lt_of_find? (valid : node.layout.Valid) (hc : node.find? byte = some child) :
    child.stats.height < (inner node).stats.height := by
  have he : (byte, child) ∈ node.entries := (Node.mem_entries valid).2 hc
  obtain ⟨n, hn⟩ : ∃ n, (inner node).stats.height = n + 1 :=
    ⟨_, by rw [stats_inner, Stats.height_under]⟩
  exact hn ▸ Nat.lt_succ_of_le (height_stats_inner_le_iff.1 hn.le _ he)

/-! ## Leaves, nodes and height -/

/-- The leaves that a tree is said to be made of are those that it lists. -/
theorem leaves_stats (tree : Tree) : tree.stats.leaves = tree.toList.length := by
  induction tree using Tree.inductionOn with
  | onLeaf value =>
    rw [stats_leaf, toList_leaf]
    rfl
  | onInner node ih =>
    rw [leaves_stats_inner, toList_inner, List.length_flatMap]
    exact congrArg List.sum <| List.map_congr_left fun entry he =>
      ih entry.2 (Node.mem_of_mem_entries he)

/-- The nodes are fewer than the leaves: with two children or more a node has more leaves below it
than its children have nodes together, by as many as it has children. -/
theorem Every.nodes_lt_leaves (h : tree.Every Node.Valid) :
    tree.stats.nodes < tree.stats.leaves := by
  induction h with
  | leaf value => rw [stats_leaf]; decide
  | @inner node valid _ ih =>
    have htwo : 2 ≤ node.entries.length := valid.layout.count_eq ▸ valid.two_le_count
    have hsum : (node.entries.map fun entry => entry.2.stats.nodes + 1).sum ≤
        (node.entries.map fun entry => entry.2.stats.leaves).sum :=
      List.sum_le_sum fun entry he => ih entry.1 entry.2 ((Node.mem_entries valid.layout).1 he)
    rw [List.sum_map_add, List.map_const', List.sum_replicate, smul_eq_mul, mul_one] at hsum
    rw [nodes_stats_inner, leaves_stats_inner]
    omega

/-- No leaf lies below more nodes than there are. -/
theorem height_le_nodes (tree : Tree) : tree.stats.height ≤ tree.stats.nodes := by
  induction tree using Tree.inductionOn with
  | onLeaf value => rw [stats_leaf]; decide
  | onInner node ih =>
    rw [nodes_stats_inner, height_stats_inner_le_iff]
    intro entry he
    exact (ih entry.2 (Node.mem_of_mem_entries he)).trans
      (List.le_sum_of_mem (List.mem_map_of_mem he))

/-- Below the bytes above a tree its keys have a byte for each node on the way to them. -/
theorem Fits.length_add_height_le (h : tree.Fits load above)
    (hkeys : ∀ v ∈ tree.toList, (load v).length ≤ n) : above.length + tree.stats.height ≤ n := by
  induction h with
  | leaf starts =>
    rw [stats_leaf]
    exact starts.length_le.trans (hkeys _ (by rw [toList_leaf, List.mem_singleton]))
  | @inner above node path valid path_eq below ih =>
    have h : Spans load above path node := ⟨valid, path_eq, below⟩
    have hchild (entry : UInt8 × Tree) (he : entry ∈ node.entries) :
        above.length + entry.2.stats.height + 1 ≤ n := by
      have hc := (Node.mem_entries valid.layout).1 he
      have := ih entry.1 entry.2 hc fun v hv => hkeys v (h.mem_toList.2 ⟨_, _, hc, hv⟩)
      rw [h.length_branch] at this
      omega
    obtain ⟨first, hfirst⟩ := List.exists_mem_of_ne_nil _ (inhabited_of_valid valid).2
    have hroom := hchild first hfirst
    have : (Tree.inner node).stats.height ≤ n - above.length - 1 + 1 :=
      height_stats_inner_le_iff.2 fun entry he => by
        have := hchild entry he
        omega
    omega

end Tree

end AdaptiveRadix
