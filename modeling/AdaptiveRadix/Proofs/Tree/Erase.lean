/-
Erasure keeps the invariant and takes one payload out. A key that is not in the tree leaves it
as it is, whatever bytes the key has: the descent skips bytes of paths that are not stored,
but the leaf it arrives at decides by its whole key.
-/
import AdaptiveRadix.Proofs.Tree.Fits
import AdaptiveRadix.Tree.Erase

namespace AdaptiveRadix.Tree

variable {load : Loader} {above path key : Key} {tree : Tree} {node node' : Node Tree}
  {byte : UInt8} {child : Tree} {v w : UInt64}

/-- A search for a key that no leaf has ends without a change. -/
theorem eraseAt_eq_unchanged (h : tree.Every (·.layout.Valid))
    (habsent : ∀ v ∈ tree.toList, load v ≠ key) (depth : Nat) :
    tree.eraseAt load key depth = .unchanged tree none := by
  induction h generalizing depth with
  | leaf value => rw [eraseAt]
  | @inner node valid _ ih =>
    rw [eraseAt]
    split
    · rfl
    split
    · rfl
    next byte _ =>
    split
    · rfl
    · next value hc =>
      rw [if_neg (habsent value ((mem_toList_inner valid).2
        ⟨byte, leaf value, hc, by rw [toList_leaf, List.mem_singleton]⟩))]
    · next child hc =>
      rw [ih byte (inner child) hc fun v hv =>
        habsent v ((mem_toList_inner valid).2 ⟨byte, inner child, hc, hv⟩)]
      rw [Outcome.within, Outcome.unchanged, Outcome.unchanged, Node.replace_self hc]

/-- The outcome of taking a payload out of a tree. -/
structure Erases (load : Loader) (tree : Tree) (above : Key) (value : UInt64) (done : Erasure) :
    Prop where
  answer : done.answer = some value
  fits : done.state.Fits load above
  mem : ∀ v, v ∈ done.state.toList ↔ v ∈ tree.toList ∧ v ≠ value

/-! ## The node that has lost a child -/

/-- Lifted into the place of the node above it, a tree keeps its leaves, and its path grows by
the path of that node and the byte that led down. -/
theorem Fits.lift (h : tree.Fits load (above ++ path ++ [byte])) :
    (tree.lift (.ofBytes path) byte).Fits load above ∧
      (tree.lift (.ofBytes path) byte).toList = tree.toList := by
  cases h with
  | leaf starts checked =>
    rw [List.append_assoc] at starts
    exact ⟨.leaf ((List.prefix_append ..).trans starts) checked, rfl⟩
  | inner path' valid path_eq below =>
    have hlt := Spans.length_lt ⟨valid, path_eq, below⟩
    rw [List.length_append, List.length_append, List.length_singleton] at hlt
    have hmax : Key.maxLength < UInt32.size := by decide
    rw [Tree.lift, path_eq, Path.join_ofBytes (by omega)]
    refine ⟨.inner (path ++ byte :: path') ⟨valid.layout, valid.fewest⟩ rfl fun b child hc => ?_, ?_⟩
    · have := below b child hc
      rwa [← List.append_assoc above path, List.append_cons (above ++ path)]
    · rw [toList_inner, toList_inner]
      rfl

/-- A node with enough children for its kind stays as it is. -/
theorem settle_of_valid (h : node.Valid) : (settle node).1 = inner node := by
  have htwo := h.two_le_count
  rw [settle, h.shouldShrink_eq_false, if_neg Bool.false_ne_true, if_neg]
  rintro ⟨-, hone⟩
  omega

/-- A node of the smallest kind gives way to its only child. -/
theorem settle_of_only (h : node.layout.Valid) (hfour : node.kind = .four)
    (he : node.entries = [(byte, child)]) : (settle node).1 = child.lift node.path byte := by
  have hone : node.count = 1 := h.count_eq.trans (congrArg List.length he)
  have hkeep : node.shouldShrink = false := by
    rw [Node.shouldShrink, hfour]
    rfl
  rw [settle, hkeep, if_neg Bool.false_ne_true, if_pos ⟨hfour, hone⟩, Node.first?_eq h, he,
    List.head?_cons]

/-- A node with at most one child too few for its kind stays, if need be as one of a smaller kind, or
gives way to its only child. -/
theorem settle_cases (h : node.layout.Valid) (hfew : node.kind.fewest ≤ node.count + 1) :
    (∃ node', (settle node).1 = inner node' ∧ node'.Valid ∧ node'.path = node.path ∧
        node'.find? = node.find?) ∨
      ∃ byte child, node.entries = [(byte, child)] ∧
        (settle node).1 = child.lift node.path byte := by
  by_cases hs : node.shouldShrink
  · obtain ⟨hvalid, hfind⟩ := Node.shrink_valid h hs hfew
    exact .inl ⟨node.shrink.1, by rw [settle, if_pos hs], hvalid, Node.path_shrink node, hfind⟩
  by_cases hfour : node.kind = .four ∧ node.count = 1
  · have hlen : node.entries.length = 1 := h.count_eq.symm.trans hfour.2
    obtain ⟨⟨byte, child⟩, he⟩ := List.length_eq_one_iff.1 hlen
    exact .inr ⟨byte, child, he, settle_of_only h hfour.1 he⟩
  · have hvalid : node.Valid :=
      ⟨h, Node.fewest_le_count (Bool.eq_false_iff.2 hs) hfour hfew⟩
    exact .inl ⟨node, settle_of_valid hvalid, hvalid, rfl, rfl⟩

/-- A node that has lost a child: there may be one child too few for its kind. -/
structure Lacks (load : Loader) (above : Key) (path : List UInt8) (node : Node Tree) : Prop where
  layout : node.layout.Valid
  fewest : node.kind.fewest ≤ node.count + 1
  path_eq : node.path = .ofBytes path
  below : ∀ byte child, node.find? byte = some child → Fits load (above ++ path ++ [byte]) child

theorem Spans.remove (h : Spans load above path node) (hold : (node.find? byte).isSome) :
    Lacks load above path (node.remove byte).2 ∧
      (node.remove byte).2.find? = Function.update node.find? byte none := by
  obtain ⟨hlayout, hcount, hfind⟩ := Node.remove_eq h.valid.layout hold
  refine ⟨⟨hlayout, ?_, h.path_eq, fun b child hc => ?_⟩, hfind⟩
  · rw [Node.kind_remove, hcount]
    exact h.valid.fewest
  · rw [hfind] at hc
    by_cases hb : b = byte
    · rw [hb, Function.update_self] at hc
      cases hc
    · rw [Function.update_of_ne hb] at hc
      exact h.below b child hc

theorem Lacks.settle (h : Lacks load above path node) :
    (settle node).1.Fits load above ∧
      ∀ v, v ∈ (settle node).1.toList ↔ v ∈ (inner node).toList := by
  rcases settle_cases h.layout h.fewest with
    ⟨node', hdone, hvalid, hpath, hfind⟩ | ⟨byte, child, hentries, hdone⟩
  · rw [hdone]
    refine ⟨.inner path hvalid (hpath.trans h.path_eq) fun byte child hc => ?_, fun v => ?_⟩
    · exact h.below byte child (hfind ▸ hc)
    · rw [mem_toList_inner hvalid.layout, mem_toList_inner h.layout, hfind]
  · have hc : node.find? byte = some child :=
      (Node.mem_entries h.layout).1 (hentries ▸ List.mem_singleton_self _)
    obtain ⟨hfits, hlist⟩ := (h.below byte child hc).lift
    rw [hdone, h.path_eq]
    refine ⟨hfits, fun v => ?_⟩
    rw [hlist, toList_inner, hentries, List.flatMap_singleton]

/-! ## The descent -/

namespace Spans

/-- What is done at a node whose path a key goes on from hangs on the child under the next byte. -/
theorem eraseAt_eq (h : Spans load above path node) (hkey : above ++ path ++ [byte] <+: key) :
    (inner node).eraseAt load key above.length =
      match node.find? byte with
      | none => .unchanged (inner node) none
      | some (leaf value) =>
        if load value = key then
          ⟨(settle (node.remove byte).2).1, some value, (settle (node.remove byte).2).2⟩
        else .unchanged (inner node) none
      | some (inner below) =>
        ((inner below).eraseAt load key (above ++ path ++ [byte]).length).within fun child =>
          inner (node.replace byte child) := by
  obtain ⟨k, hk⟩ := Key.branch_isPrefix_iff.1 hkey
  have hinline : node.path.inline.isPrefixOf (key.drop above.length) = true := by
    rw [hk, List.drop_left, List.isPrefixOf_iff_prefix, h.inline_path]
    exact (List.take_prefix ..).trans (List.prefix_append ..)
  have hget : key[above.length + node.path.length]? = some byte := by
    rw [hk, h.getElem?_append, List.head?_cons]
  rw [Tree.eraseAt, hinline, if_neg (by decide), h.length_branch]
  split
  · next hnone =>
    rw [hget] at hnone
    cases hnone
  next b hb =>
  cases hget.symm.trans hb
  rfl

/-- A leaf under a node is taken out. -/
theorem erases_leaf (h : Spans load above path node) (hc : node.find? byte = some (leaf v))
    {events : List Event} :
    Erases load (inner node) above v ⟨(settle (node.remove byte).2).1, some v, events⟩ := by
  obtain ⟨hlacks, hfind⟩ := h.remove (by rw [hc, Option.isSome_some])
  obtain ⟨hfits, hmem⟩ := hlacks.settle
  have hkey : above ++ path ++ [byte] <+: load v :=
    h.branch_isPrefix hc (by rw [toList_leaf, List.mem_singleton])
  refine ⟨rfl, hfits, fun w => (hmem w).trans ?_⟩
  rw [mem_toList_update hlacks.layout hfind, mem_toList_under h.valid.layout byte]
  constructor
  · rintro (⟨child, hc', -⟩ | hw)
    · cases hc'
    · exact ⟨.inr hw, fun heq => (h.parts_elsewhere hkey hw).ne (congrArg load heq)⟩
  · rintro ⟨⟨child, hc', hw⟩ | hw, hne⟩
    · rw [← Option.some.inj (hc.symm.trans hc'), toList_leaf, List.mem_singleton] at hw
      exact absurd hw hne
    · exact .inr hw

/-- What is taken out of a child is taken out of the node. -/
theorem erases_within (h : Spans load above path node) (hc : node.find? byte = some child)
    (hv : v ∈ child.toList) {done : Erasure}
    (hd : Erases load child (above ++ path ++ [byte]) v done) :
    Erases load (inner node) above v (done.within fun child => inner (node.replace byte child)) := by
  obtain ⟨hvalid, hfind⟩ := h.valid.replace (by rw [hc, Option.isSome_some]) done.state
  have hspans : Spans load above path (node.replace byte done.state) :=
    h.update hvalid rfl hfind hd.fits
  refine ⟨hd.answer, hspans.fits, fun w => ?_⟩
  show w ∈ (inner (node.replace byte done.state)).toList ↔ _
  rw [mem_toList_update hvalid.layout hfind, mem_toList_under h.valid.layout byte]
  constructor
  · rintro (⟨child', hc', hw⟩ | hw)
    · obtain ⟨hw, hne⟩ := (hd.mem w).1 (Option.some.inj hc' ▸ hw)
      exact ⟨.inl ⟨child, hc, hw⟩, hne⟩
    · have hparts := h.parts_elsewhere (h.branch_isPrefix hc hv) hw
      exact ⟨.inr hw, fun heq => hparts.ne (congrArg load heq)⟩
  · rintro ⟨⟨child', hc', hw⟩ | hw, hne⟩
    · have hw : w ∈ child.toList := Option.some.inj (hc.symm.trans hc') ▸ hw
      exact .inl ⟨_, rfl, (hd.mem w).2 ⟨hw, hne⟩⟩
    · exact .inr hw

end Spans

/-- A payload below a node is found and taken out by its key. -/
theorem Fits.eraseAt (h : tree.Fits load above) (hv : v ∈ tree.toList) (ht : tree.isLeaf = false) :
    Erases load tree above v (tree.eraseAt load (load v) above.length) := by
  induction h with
  | leaf => cases ht
  | @inner above node path valid path_eq below ih =>
    have h : Spans load above path node := ⟨valid, path_eq, below⟩
    obtain ⟨byte, child, hc, hv⟩ := h.mem_toList.1 hv
    rw [h.eraseAt_eq (h.branch_isPrefix hc hv), hc]
    cases child with
    | leaf value =>
      rw [toList_leaf, List.mem_singleton] at hv
      subst hv
      simp only [if_true]
      exact h.erases_leaf hc
    | inner below => exact h.erases_within hc hv (ih byte _ hc hv rfl)

/-- A tree loses one leaf. -/
theorem Erases.length_eq {done : Erasure} (h : tree.Fits load above) (hv : v ∈ tree.toList)
    (he : Erases load tree above v done) :
    done.state.toList.length + 1 = tree.toList.length := by
  have hperm : tree.toList.Perm (v :: done.state.toList) := by
    refine (List.perm_ext_iff_of_nodup h.nodup ?_).2 fun w => ?_
    · exact List.nodup_cons.2 ⟨by simp [he.mem], he.fits.nodup⟩
    · rw [List.mem_cons, he.mem]
      by_cases hw : w = v
      · simp [hw, hv]
      · simp [hw]
  rw [hperm.length_eq, List.length_cons]

end AdaptiveRadix.Tree
