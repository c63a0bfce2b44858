/-
The keys with a given beginning. The descent to them compares stored bytes only and stops where the
beginning ends, which may be inside a path. It loses no key that begins as asked, and
where it stops all keys begin so or none does, so that any one of them may be asked.
-/
import AdaptiveRadix.Proofs.Tree.Fits
import AdaptiveRadix.Tree.Subtree

namespace AdaptiveRadix.Tree

variable {load : Loader} {above path start : Key} {tree below : Tree} {node : Node Tree}
  {byte : UInt8} {child : Tree} {v : UInt64}

/-- A part of a tree in which all keys with a given beginning are, and alone if there are any. -/
structure Narrows (load : Loader) (start : Key) (tree below : Tree) : Prop where
  fits : ∃ above, below.Fits load above
  subset : ∀ v ∈ below.toList, v ∈ tree.toList
  keeps : ∀ v ∈ tree.toList, start <+: load v → v ∈ below.toList
  alike : ∀ v ∈ below.toList, ∀ w ∈ below.toList, start <+: load v → start <+: load w

/-- What a descent comes to: nowhere, when no key begins as asked, or to where all these keys are. -/
inductive Leads (load : Loader) (start : Key) (tree : Tree) : Option Tree → Prop
  | nowhere (no_key : ∀ v ∈ tree.toList, ¬ start <+: load v) : Leads load start tree none
  | there {below : Tree} (narrows : Narrows load start tree below) : Leads load start tree (some below)

theorem narrows_leaf (h : (leaf v).Fits load above) : Narrows load start (leaf v) (leaf v) := by
  refine ⟨⟨above, h⟩, fun _ hv => hv, fun _ hv _ => hv, fun w hw u hu hp => ?_⟩
  rw [toList_leaf, List.mem_singleton] at hw hu
  rwa [hu, ← hw]

namespace Spans

/-- A beginning that ends no later than the path of a node is that of all keys below, or of none. -/
theorem narrows (h : Spans load above path node) (hlen : start.length ≤ above.length + path.length) :
    Narrows load start (inner node) (inner node) := by
  refine ⟨⟨above, h.fits⟩, fun _ hv => hv, fun _ hv _ => hv, fun v hv w hw hp => ?_⟩
  have hle : start.length ≤ (above ++ path).length := by rwa [List.length_append]
  exact (List.prefix_of_prefix_length_le hp (h.isPrefix hv) hle).trans (h.isPrefix hw)

/-- A beginning of a key below a node agrees with the stored bytes of the node's path. -/
theorem take_inline (h : Spans load above path node) (hv : v ∈ (inner node).toList)
    (hp : start <+: load v) :
    node.path.inline.take (start.drop above.length).length =
      (start.drop above.length).take node.path.inline.length := by
  obtain ⟨k, hk⟩ := h.isPrefix hv
  have hinline : node.path.inline <+: path ++ k := by
    rw [h.inline_path]
    exact (List.take_prefix ..).trans (List.prefix_append ..)
  have hrest : start.drop above.length <+: path ++ k := by
    have := hp.drop above.length
    rwa [← hk, List.append_assoc, List.drop_left] at this
  rw [List.prefix_iff_eq_take.1 hinline, List.prefix_iff_eq_take.1 hrest]
  simp only [List.take_take, List.length_take]
  congr 1
  omega

/-- A beginning that goes on after a node's path leads to the child that its keys are in. -/
theorem exists_child (h : Spans load above path node)
    (hb : start[above.length + node.path.length]? = some byte) (hv : v ∈ (inner node).toList)
    (hp : start <+: load v) : ∃ child, node.find? byte = some child ∧ v ∈ child.toList := by
  obtain ⟨b, child, hc, hv⟩ := h.mem_toList.1 hv
  obtain ⟨k, hk⟩ := Key.branch_isPrefix_iff.1 (h.branch_isPrefix hc hv)
  have hget := Key.getElem?_of_isPrefix hp hb
  rw [hk, h.getElem?_append, List.head?_cons, Option.some.injEq] at hget
  exact ⟨child, hget ▸ hc, hv⟩

/-- Where the descent in the child leads, the descent in the node leads. -/
theorem leads_child (h : Spans load above path node) {found : Option Tree}
    (hb : start[above.length + node.path.length]? = some byte) (hc : node.find? byte = some child)
    (hleads : Leads load start child found) : Leads load start (inner node) found := by
  have hchild (v : UInt64) (hv : v ∈ (inner node).toList) (hp : start <+: load v) :
      v ∈ child.toList := by
    obtain ⟨child', hc', hv⟩ := h.exists_child hb hv hp
    exact Option.some.inj (hc'.symm.trans hc) ▸ hv
  cases hleads with
  | nowhere hno => exact .nowhere fun v hv hp => hno v (hchild v hv hp) hp
  | there hn =>
    refine .there ⟨hn.fits, fun v hv => ?_, fun v hv hp => ?_, hn.alike⟩
    · exact h.mem_toList.2 ⟨byte, child, hc, hn.subset v hv⟩
    · exact hn.keeps v (hchild v hv hp) hp

end Spans

/-- The descent ends where the keys with the given beginning are, or there are none. -/
theorem Fits.follow? (h : tree.Fits load above) (start : Key) :
    Leads load start tree (tree.follow? start above.length) := by
  induction h with
  | leaf starts checked =>
    rw [Tree.follow?]
    exact .there (narrows_leaf (.leaf starts checked))
  | @inner above node path valid path_eq below ih =>
    have h : Spans load above path node := ⟨valid, path_eq, below⟩
    rw [Tree.follow?]
    split
    · next hlen => exact .there (h.narrows (Nat.le_add_right_of_le hlen))
    dsimp only
    split
    · next hne => exact .nowhere fun v hv hp => hne (h.take_inline hv hp)
    -- From here on the stored bytes agree; those that are not stored are passed unseen.
    split
    · next hnone =>
      rw [List.getElem?_eq_none_iff, h.length_path] at hnone
      exact .there (h.narrows hnone)
    next byte hbyte =>
    cases hc : node.find? byte with
    | none =>
      refine .nowhere fun v hv hp => ?_
      obtain ⟨child, hc', -⟩ := h.exists_child hbyte hv hp
      cases hc.symm.trans hc'
    | some child =>
      have hleads := ih byte child hc
      rw [h.length_branch] at hleads
      exact h.leads_child hbyte hc hleads

/-- The subtree for a beginning has the keys that begin so, and there is none when no key does. -/
theorem Fits.subtree? (h : tree.Fits load []) (start : Key) :
    (tree.subtree? load start = none ↔ ∀ v ∈ tree.toList, ¬ start <+: load v) ∧
      ∀ below, tree.subtree? load start = some below →
        (∃ above, below.Fits load above) ∧
          ∀ v, v ∈ below.toList ↔ v ∈ tree.toList ∧ start <+: load v := by
  have hleads := h.follow? start
  rw [List.length_nil] at hleads
  rw [Tree.subtree?]
  generalize tree.follow? start 0 = found at hleads
  cases hleads with
  | nowhere hno => simpa using hno
  | @there below hn =>
    obtain ⟨above, hfits⟩ := hn.fits
    obtain ⟨w, rest, hl⟩ := List.exists_cons_of_ne_nil hfits.inhabited.toList_ne_nil
    have hw : w ∈ below.toList := hl ▸ List.mem_cons_self
    rw [Option.bind_some, hfits.inhabited.minimum?_eq, hl, List.head?_cons, Option.bind_some]
    -- The first key of the subtree speaks for all of them.
    by_cases hp : start <+: load w
    · rw [if_pos (List.isPrefixOf_iff_prefix.2 hp)]
      constructor
      · simpa using ⟨w, hn.subset w hw, hp⟩
      · intro below' hb
        cases hb
        refine ⟨⟨above, hfits⟩, fun v => ?_⟩
        constructor
        · intro hv
          exact ⟨hn.subset v hv, hn.alike w hw v hv hp⟩
        · intro hv
          exact hn.keeps v hv.1 hv.2
    · rw [if_neg (mt List.isPrefixOf_iff_prefix.1 hp)]
      have hno : ∀ v ∈ tree.toList, ¬ start <+: load v :=
        fun v hv hpv => hp (hn.alike v (hn.keeps v hv hpv) w hw hpv)
      simpa using hno

end AdaptiveRadix.Tree
