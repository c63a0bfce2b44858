/-
The paths of an index tell the truth about every key below them, although only the smallest
one is ever asked, and the check of the index has nothing to report.
-/
import AdaptiveRadix.Proofs.Index.Reaches
import AdaptiveRadix.Proofs.Tree.Integrity

namespace AdaptiveRadix

/-- A tree stands inside another, where its own path begins at a depth. -/
inductive Tree.Within (root : Tree) : Tree → Nat → Prop
  | root : Within root root 0
  | child {node : Node Tree} {byte : UInt8} {child : Tree} {depth : Nat}
      (h : Within root (.inner node) depth) (hc : node.find? byte = some child) :
      Within root child (depth + node.path.length + 1)

theorem Tree.Within.exists_fits {root tree : Tree} {load : Loader} {depth : Nat}
    (hw : root.Within tree depth) (h : root.Fits load []) :
    ∃ above : Key, above.length = depth ∧ tree.Fits load above := by
  induction hw with
  | root => exact ⟨[], rfl, h⟩
  | @child node byte child depth _ hc ih =>
    obtain ⟨above, rfl, hfits⟩ := ih
    obtain ⟨path, hspans⟩ := hfits.spans
    exact ⟨above ++ path ++ [byte], hspans.length_branch byte, hspans.below byte child hc⟩

/-- The bytes that a node's path stands for are those of every key below it, of which the node
stores the first nine, and each key goes on with the byte of the branch that it is under. -/
structure Node.TellsTruth (load : Loader) (node : Node Tree) (depth : Nat) (path : List UInt8) :
    Prop where
  length : node.path.length = path.length
  inline : node.path.inline = path.take Path.capacity
  stored : node.path.stored.toList =
    path.take Path.capacity ++ List.replicate (Path.capacity - path.length) 0
  longer : ∀ v ∈ (Tree.inner node).toList, depth + path.length < (load v).length
  shared : ∀ v ∈ (Tree.inner node).toList, ((load v).drop depth).take path.length = path
  branch : ∀ byte child, node.find? byte = some child → ∀ v ∈ child.toList,
    (load v)[depth + path.length]? = some byte

theorem Tree.Spans.tellsTruth {load : Loader} {above : Key} {path : List UInt8} {node : Node Tree}
    (h : Spans load above path node) : node.TellsTruth load above.length path := by
  have hbranch : ∀ byte child, node.find? byte = some child → ∀ v ∈ child.toList,
      ∃ k, load v = above ++ (path ++ byte :: k) := fun byte child hc v hv =>
    Key.branch_isPrefix_iff.1 (h.branch_isPrefix hc hv)
  refine ⟨h.length_path, h.inline_path, ?_, fun v hv => ?_, fun v hv => ?_,
    fun byte child hc v hv => ?_⟩
  · rw [h.path_eq, Path.toList_stored_ofBytes]
  · obtain ⟨byte, child, hc, hv⟩ := h.mem_toList.1 hv
    obtain ⟨k, hk⟩ := hbranch byte child hc v hv
    rw [hk, List.length_append, List.length_append, List.length_cons]
    omega
  · obtain ⟨byte, child, hc, hv⟩ := h.mem_toList.1 hv
    obtain ⟨k, hk⟩ := hbranch byte child hc v hv
    rw [hk, List.drop_left, List.take_left]
  · obtain ⟨k, hk⟩ := hbranch byte child hc v hv
    rw [hk, ← h.length_path, h.getElem?_append, List.head?_cons]

variable {index : Index} {contents : Contents} {load : Loader}

theorem Index.Holds.issues_eq_nil (h : index.Holds load contents) : index.issues load = [] := by
  have htree : (index.root.elim [] fun root => root.issuesAt load 0 []) = [] := by
    cases hr : index.root with
    | none => rfl
    | some root => exact (h.fits root hr).issuesAt_eq_nil nofun
  have hcount : index.stats.leaves = index.length := index.leaves_stats.trans h.length.symm
  rw [issues, htree, if_pos hcount, h.payloads_eq, Tree.orderIssues_eq_nil h.ascending]
  rfl

/-- After any run every path tells the truth, and the check of the index finds nothing. -/
theorem Reaches.paths_tell_truth (h : Reaches index contents) (resolve : contents.Resolve load) :
    (∀ root node depth, index.root = some root → root.Within (.inner node) depth →
      ∃ path, node.TellsTruth load depth path) ∧
    index.issues load = [] := by
  have hholds := h.holds resolve
  refine ⟨fun root node depth hr hw => ?_, hholds.issues_eq_nil⟩
  obtain ⟨above, rfl, hfits⟩ := hw.exists_fits (hholds.fits root hr)
  obtain ⟨path, hspans⟩ := hfits.spans
  exact ⟨path, hspans.tellsTruth⟩

theorem exists_root_twins : ∃ node, twins.root = some (.inner node) := by
  have hleaf : (twins.root.all Tree.isLeaf) = false := by cbv
  rcases hr : twins.root with _ | _ | node
  · simp [hr] at hleaf
  · simp [hr, Tree.isLeaf] at hleaf
  · exact ⟨node, rfl⟩

theorem twins_tell_truth :
    (∃ node path, twins.root = some (.inner node) ∧ node.TellsTruth twinKey 0 path) ∧
      twins.issues twinKey = [] := by
  obtain ⟨htruth, hissues⟩ := Reaches.paths_tell_truth reaches_twins resolve_twins
  obtain ⟨node, hr⟩ := exists_root_twins
  obtain ⟨path, hpath⟩ := htruth _ node 0 hr .root
  exact ⟨⟨node, path, hr, hpath⟩, hissues⟩

end AdaptiveRadix
