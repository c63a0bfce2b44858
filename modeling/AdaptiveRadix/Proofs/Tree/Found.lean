/-
What a search for a key finds when the bytes sought are no key of the tree. A leaf is answered
unread when all bytes were compared on the way, so these may be the beginning of its key only. Even
then they are enough to tell that key from all others, and an optimistic search has found
nothing that a pessimistic one would not.
-/
import AdaptiveRadix.Proofs.Tree.Seek

namespace AdaptiveRadix.Tree

variable {load : Loader} {above path key : Key} {tree : Tree} {node : Node Tree}
  {byte : UInt8} {child : Tree} {v w : UInt64} {policy : Policy} {skipped : Bool}

/-- What goes on with the path and a byte of a node is under that byte. -/
theorem Spans.mem_child (h : Spans load above path node) (hc : node.find? byte = some child)
    (hkey : above ++ path ++ [byte] <+: key) (hw : w ∈ (inner node).toList)
    (hp : key <+: load w) : w ∈ child.toList := by
  rcases (mem_toList_under h.valid.layout byte).1 hw with ⟨child', hc', hw⟩ | hw
  · cases hc.symm.trans hc'
    exact hw
  · exact absurd hp (h.parts_elsewhere hkey hw).symm.not_isPrefix

/-- The bytes sought go on with the path and the byte that lead to a key that begins with them. -/
theorem Spans.branch_isPrefix_of_mem (h : Spans load above path node)
    (hb : key[above.length + node.path.length]? = some byte)
    (hc : node.find? byte = some child) (hv : v ∈ child.toList) (hp : key <+: load v) :
    above ++ path ++ [byte] <+: key := by
  refine List.prefix_of_prefix_length_le (h.branch_isPrefix hc hv) hp ?_
  rw [h.length_branch]
  exact (List.getElem?_eq_some_iff.1 hb).1

/-- What a search finds is the only payload whose key begins with the bytes sought. -/
theorem Fits.eq_of_seek (h : tree.Fits load above) (hreach : above <+: key ∨ skipped = true)
    (hs : tree.seek load key above.length skipped (.exact policy) = some v)
    (hw : w ∈ tree.toList) (hp : key <+: load w) : w = v := by
  induction h generalizing skipped with
  | leaf starts =>
    rw [Tree.seek] at hs
    rw [toList_leaf, List.mem_singleton] at hw
    exact hw.trans (isPrefix_of_checkLeaf hreach starts hs).1.symm
  | @inner above node path valid path_eq below ih =>
    have h : Spans load above path node := ⟨valid, path_eq, below⟩
    have ho := agree_or_skipped_of_seek hs
    obtain ⟨byte, child, hb, hc, hs⟩ := exists_child_of_seek hs
    rw [← h.length_branch byte] at hs
    have hreach := h.reach_child hreach ho hb
    obtain ⟨hv, hk⟩ := (below byte child hc).isPrefix_of_seek hreach hs
    have hkey := h.branch_isPrefix_of_mem hb hc hv hk
    exact ih byte child hc hreach hs (h.mem_child hc hkey hw hp)

/-! ## The policies side by side -/

theorem checkLeaf_pessimistic (hreach : above <+: key ∨ skipped = true) (hv : above <+: load v)
    (hs : checkLeaf load v key above.length skipped (.exact policy) = some w) :
    checkLeaf load v key above.length false (.exact .pessimistic) = some w := by
  obtain ⟨rfl, hp⟩ := isPrefix_of_checkLeaf hreach hv hs
  by_cases hend : above.length = key.length
  · rw [checkLeaf, if_pos ⟨hend, rfl⟩]
  · rw [checkLeaf, if_neg fun he => hend he.1] at hs
    have hlen := (Option.ite_none_right_eq_some.1 hs).1.1
    exact checkLeaf_of_eq _ (hp.eq_of_length hlen.symm).symm

theorem Spans.comparePath_eq_agree (h : Spans load above path node)
    (hkey : above ++ path <+: key) :
    node.comparePath load key above.length (.exact .pessimistic) = .agree := by
  obtain ⟨k, rfl⟩ := hkey
  obtain ⟨seen, -, hseen, hcmp⟩ := h.comparePath_eq (above ++ path ++ k) (.exact .pessimistic)
  rw [hcmp, hseen (by decide), List.append_assoc, List.drop_left, PathOrder.ofBytes_append,
    decide_eq_true (Nat.le_refl _), if_pos rfl]

/-- What any search finds, whatever it has skipped, a search that skips nothing finds. -/
theorem Fits.seek_pessimistic (h : tree.Fits load above)
    (hreach : above <+: key ∨ skipped = true)
    (hs : tree.seek load key above.length skipped (.exact policy) = some v) :
    tree.seek load key above.length false (.exact .pessimistic) = some v := by
  induction h generalizing skipped with
  | leaf starts =>
    rw [Tree.seek] at hs ⊢
    exact checkLeaf_pessimistic hreach starts hs
  | @inner above node path valid path_eq below ih =>
    have h : Spans load above path node := ⟨valid, path_eq, below⟩
    have ho := agree_or_skipped_of_seek hs
    obtain ⟨byte, child, hb, hc, hs⟩ := exists_child_of_seek hs
    rw [← h.length_branch byte] at hs
    have hreach := h.reach_child hreach ho hb
    obtain ⟨hv, hk⟩ := (below byte child hc).isPrefix_of_seek hreach hs
    have hkey := h.branch_isPrefix_of_mem hb hc hv hk
    have hagree := h.comparePath_eq_agree ((List.prefix_append ..).trans hkey)
    have hs := ih byte child hc hreach hs
    rw [h.length_branch] at hs
    rw [seek_of_byte (.inl hagree) hb, hc, Option.bind_some, hagree]
    exact congrArg (Option.or · none) hs

end AdaptiveRadix.Tree
