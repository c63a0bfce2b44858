/-
The shape of a tree: how its nodes are nested, their paths and branch bytes, and its payloads. The
keys decide it. A path is as long as all keys below go on alike, for below it they part; so two
trees with the same keys have the same path at the top, and under each byte the same keys
again. What kinds the nodes are of is left open, and is known only where the number of
children tells it.
-/
import AdaptiveRadix.Proofs.Tree.Fits

namespace AdaptiveRadix

/-- A tree of which each node is known by a label, and by its children in ascending order of their
bytes. -/
inductive Sketch (β : Type) where
  | leaf (value : UInt64)
  | inner (label : β) (children : List (UInt8 × Sketch β))

/-- Nodes whose children come to the same have as many of them. -/
theorem Node.count_congr {α β : Type} {node node' : Node α} {f : UInt8 × α → β}
    (h : node.layout.Valid) (h' : node'.layout.Valid)
    (heq : node.entries.map f = node'.entries.map f) : node.count = node'.count := by
  have hlen := congrArg List.length heq
  rw [List.length_map, List.length_map] at hlen
  exact h.count_eq.trans (hlen.trans h'.count_eq.symm)

namespace Tree

def sketch {β : Type} (label : Node Tree → β) (tree : Tree) : Sketch β :=
  tree.fold Sketch.leaf fun node children => .inner (label node) children

/-- Nesting, paths, branch bytes and payloads, without the kinds of the nodes and the slots of their
children. -/
def shape (tree : Tree) : Sketch Path :=
  tree.sketch Node.path

variable {load : Loader} {above path path' : Key} {tree tree' : Tree} {node node' : Node Tree}
  {byte : UInt8} {child : Tree} {v : UInt64}

namespace Spans

/-! ## What the keys tell of a node -/

/-- Below a node there are keys that go on from its path with different bytes. -/
theorem exists_fork (h : Spans load above path node) :
    ∃ x y v w, x ≠ y ∧ (v ∈ (inner node).toList ∧ above ++ path ++ [x] <+: load v) ∧
      w ∈ (inner node).toList ∧ above ++ path ++ [y] <+: load w := by
  have hcount : 2 ≤ node.entries.length := h.valid.layout.count_eq ▸ h.valid.two_le_count
  have hasc := h.valid.layout.ascending
  have hmem (entry : UInt8 × Tree) : entry ∈ node.entries ↔ node.find? entry.1 = some entry.2 :=
    Node.mem_entries h.valid.layout
  match hl : node.entries, hcount with
  | (x, c) :: (y, d) :: rest, _ =>
    change node.entries.Pairwise _ at hasc
    rw [hl] at hasc hmem
    have hc : node.find? x = some c := (hmem (x, c)).1 (by simp)
    have hd : node.find? y = some d := (hmem (y, d)).1 (by simp)
    obtain ⟨v, hv⟩ := (h.below x c hc).exists_mem
    obtain ⟨w, hw⟩ := (h.below y d hd).exists_mem
    have hxy : x < y := (List.pairwise_cons.1 hasc).1 (y, d) List.mem_cons_self
    exact ⟨x, y, v, w, fun he => UInt8.lt_irrefl _ (he ▸ hxy),
      ⟨h.mem_toList.2 ⟨x, c, hc, hv⟩, h.branch_isPrefix hc hv⟩,
      h.mem_toList.2 ⟨y, d, hd, hw⟩, h.branch_isPrefix hd hw⟩

/-- Two different payloads are below every node. -/
theorem exists_ne (h : Spans load above path node) (value : UInt64) :
    ∃ v ∈ (inner node).toList, v ≠ value := by
  obtain ⟨x, y, v, w, hxy, ⟨hv, hvx⟩, hw, hwy⟩ := h.exists_fork
  by_cases hne : v = value
  · refine ⟨w, hw, fun he => ?_⟩
    exact ((Key.parts_of_ne hxy).extend hvx hwy).ne (congrArg load (hne.trans he.symm))
  · exact ⟨v, hv, hne⟩

/-- No beginning of all keys below a node is longer than its path. -/
theorem length_le (h : Spans load above path node)
    (hall : ∀ v ∈ (inner node).toList, above ++ path' <+: load v) : path'.length ≤ path.length := by
  obtain ⟨x, y, v, w, hxy, ⟨hv, hvx⟩, hw, hwy⟩ := h.exists_fork
  by_contra hlt
  have hle (b : UInt8) : (above ++ path ++ [b]).length ≤ (above ++ path').length := by
    simp only [List.length_append, List.length_singleton]
    omega
  have hx := List.prefix_of_prefix_length_le hvx (hall v hv) (hle x)
  have hy := List.prefix_of_prefix_length_le hwy (hall w hw) (hle y)
  exact ((Key.parts_of_ne hxy).extend hx hy).ne rfl

/-- Nodes with the same payloads below them have the same path. -/
theorem path_unique (h : Spans load above path node) (h' : Spans load above path' node')
    (hmem : ∀ v, v ∈ (inner node).toList ↔ v ∈ (inner node').toList) : path = path' := by
  have hle : path'.length ≤ path.length :=
    h.length_le fun v hv => h'.isPrefix ((hmem v).1 hv)
  have hge : path.length ≤ path'.length :=
    h'.length_le fun v hv => h.isPrefix ((hmem v).2 hv)
  obtain ⟨v, hv⟩ := h.fits.exists_mem
  have hlen : (above ++ path).length = (above ++ path').length := by
    rw [List.length_append, List.length_append]
    omega
  have heq := List.prefix_of_prefix_length_le (h.isPrefix hv) (h'.isPrefix ((hmem v).1 hv)) hlen.le
  exact List.append_cancel_left (heq.eq_of_length hlen)

/-- A child has the payloads whose keys go on with its byte. -/
theorem mem_child_iff (h : Spans load above path node) (hc : node.find? byte = some child) :
    v ∈ child.toList ↔ v ∈ (inner node).toList ∧ above ++ path ++ [byte] <+: load v := by
  constructor
  · exact fun hv => ⟨h.mem_toList.2 ⟨byte, child, hc, hv⟩, h.branch_isPrefix hc hv⟩
  · rintro ⟨hv, hp⟩
    rcases (mem_toList_under h.valid.layout byte).1 hv with ⟨child', hc', hv⟩ | hv
    · exact Option.some.inj (hc'.symm.trans hc) ▸ hv
    · exact absurd rfl (h.parts_elsewhere hp hv).ne

/-- There is no child under a byte with which no key goes on. -/
theorem find?_eq_none_iff (h : Spans load above path node) :
    node.find? byte = none ↔
      ∀ v ∈ (inner node).toList, ¬ above ++ path ++ [byte] <+: load v := by
  constructor
  · intro hnone v hv hp
    exact (h.parts_key hp hnone v hv).ne rfl
  · intro hno
    refine Option.eq_none_iff_forall_ne_some.2 fun child hc => ?_
    obtain ⟨v, hv⟩ := (h.below byte child hc).exists_mem
    exact hno v (h.mem_toList.2 ⟨byte, child, hc, hv⟩) (h.branch_isPrefix hc hv)

/-- Under each byte, nodes with the same payloads below them have children with the same payloads, or
neither has a child. -/
theorem map_find?_congr {β : Type} {f : Tree → β} (h : Spans load above path node)
    (h' : Spans load above path node')
    (hmem : ∀ v, v ∈ (inner node).toList ↔ v ∈ (inner node').toList)
    (hf : ∀ child child', node.find? byte = some child → node'.find? byte = some child' →
      (∀ v, v ∈ child.toList ↔ v ∈ child'.toList) → f child = f child') :
    (node.find? byte).map f = (node'.find? byte).map f := by
  have hnone : node.find? byte = none ↔ node'.find? byte = none := by
    simp only [h.find?_eq_none_iff, h'.find?_eq_none_iff, hmem]
  cases hc : node.find? byte with
  | none => rw [hnone.1 hc]
  | some child =>
    cases hc' : node'.find? byte with
    | none => cases hc.symm.trans (hnone.2 hc')
    | some child' =>
      refine congrArg some (hf child child' hc hc' fun v => ?_)
      rw [h.mem_child_iff hc, h'.mem_child_iff hc', hmem]

end Spans

/-! ## Two trees with the same payloads -/

/-- Trees with the same payloads come to the same whenever what a node contributes hangs on its path,
its number of children, and what they come to. -/
theorem Fits.fold_congr {β : Type} {onLeaf : UInt64 → β} {onInner : Node Tree → List (UInt8 × β) → β}
    {p : Node Tree → Prop} (h : tree.Fits load above) (h' : tree'.Fits load above)
    (hp : tree.Every p) (hp' : tree'.Every p) (hmem : ∀ v, v ∈ tree.toList ↔ v ∈ tree'.toList)
    (hinner : ∀ node node' below, p node → p node' → node.path = node'.path →
      node.count = node'.count → onInner node below = onInner node' below) :
    tree.fold onLeaf onInner = tree'.fold onLeaf onInner := by
  -- Both trees stand below the same bytes; that their paths and bytes are the same is not assumed
  -- but follows at each node from the payloads.
  induction h generalizing tree' with
  | @leaf above value =>
    cases h' with
    | @leaf _ value' =>
      have hv := hmem value
      rw [toList_leaf, toList_leaf, List.mem_singleton, List.mem_singleton] at hv
      rw [hv.1 rfl]
    | inner path' valid' path_eq' below' =>
      obtain ⟨v, hv, hne⟩ := Spans.exists_ne ⟨valid', path_eq', below'⟩ value
      exact absurd (List.mem_singleton.1 (toList_leaf value ▸ (hmem v).2 hv)) hne
  | @inner above node path valid path_eq below ih =>
    have h : Spans load above path node := ⟨valid, path_eq, below⟩
    cases h' with
    | @leaf _ value' =>
      obtain ⟨v, hv, hne⟩ := h.exists_ne value'
      exact absurd (List.mem_singleton.1 (toList_leaf value' ▸ (hmem v).1 hv)) hne
    | @inner _ node' path' valid' path_eq' below' =>
      have h' : Spans load above path' node' := ⟨valid', path_eq', below'⟩
      obtain rfl := h.path_unique h' hmem
      cases hp with | inner holds hbelow => ?_
      cases hp' with | inner holds' hbelow' => ?_
      -- The children are compared byte by byte, since the nodes may keep them in different slots.
      have hfind (byte : UInt8) : (node.find? byte).map (·.fold onLeaf onInner) =
          (node'.find? byte).map (·.fold onLeaf onInner) :=
        h.map_find?_congr h' hmem fun child child' hc hc' =>
          ih byte child hc (below' byte child' hc') (hbelow byte child hc) (hbelow' byte child' hc')
      have hentries : (node.entries.map fun entry => (entry.1, entry.2.fold onLeaf onInner)) =
          node'.entries.map fun entry => (entry.1, entry.2.fold onLeaf onInner) := by
        rw [Node.map_entries valid.layout, Node.map_entries valid'.layout]
        exact congrArg Probe.entries (funext hfind)
      have hcount : node.count = node'.count :=
        Node.count_congr valid.layout valid'.layout hentries
      rw [fold_inner, fold_inner, hentries]
      exact hinner node node' _ holds holds' (path_eq.trans path_eq'.symm) hcount

end Tree

end AdaptiveRadix
