/-
Insertion keeps the invariant and changes the payloads as an ordered map would: the new
payload comes in, and the one with the same key goes out and is answered. A key is rejected,
and the tree left as it is, just when some key of the tree begins it or goes on from it. The
descent is described once, by `Attempt`; all else is shown by induction on it.
-/
import AdaptiveRadix.Proofs.Tree.Fits
import AdaptiveRadix.Tree.Insert

namespace AdaptiveRadix.Tree

variable {load : Loader} {above path key : Key} {tree : Tree} {node : Node Tree}
  {byte : UInt8} {child : Tree} {v value : UInt64} {done : Insertion}

/-! ## What an insertion can come to -/

/-- Some other key of the tree begins the given one, or goes on from it. -/
def Clashes (load : Loader) (tree : Tree) (key : Key) : Prop :=
  ∃ v ∈ tree.toList, load v ≠ key ∧ (load v <+: key ∨ key <+: load v)

/-- What inserting a key comes to in a tree whose keys, like the new one, begin with the bytes
above it. The payload may be any, also one whose key is another. -/
inductive Attempt (load : Loader) (key : Key) (value : UInt64) : Key → Tree → Insertion → Prop
  /-- The key is rejected. -/
  | clash {above : Key} {tree : Tree} (clashes : Clashes load tree key) :
      Attempt load key value above tree (reject tree (.key .notPrefixFree))
  /-- The key is there already. -/
  | renew {above : Key} {existing : UInt64} (starts : above <+: key) (same : load existing = key) :
      Attempt load key value above (leaf existing) ⟨leaf value, .ok (some existing), []⟩
  /-- The key parts from that of a leaf. -/
  | part {above path : Key} {existing : UInt64} {x y : UInt8}
      (old : (leaf existing).Fits load (above ++ path ++ [x])) (ne : x ≠ y)
      (branch : above ++ path ++ [y] <+: key) :
      Attempt load key value above (leaf existing)
        (branchOff (leaf existing) path x (leaf existing) y value [])
  /-- The key leaves a path. -/
  | cut {above p p' : Key} {node : Node Tree} {x y : UInt8}
      (old : Spans load above (p ++ x :: p') node) (ne : x ≠ y) (branch : above ++ p ++ [y] <+: key) :
      Attempt load key value above (inner node)
        (branchOff (inner node) p x (inner { node with path := .ofBytes p' }) y value
          [.split node.path.length p.length above.length])
  /-- The key goes on where no child is. -/
  | extend {above path : Key} {node : Node Tree} {byte : UInt8} (spans : Spans load above path node)
      (branch : above ++ path ++ [byte] <+: key) (new : node.find? byte = none) :
      Attempt load key value above (inner node) (insertInNode node byte value)
  /-- The key leads to a child. -/
  | descend {above path : Key} {node : Node Tree} {byte : UInt8} {child : Tree} {done : Insertion}
      (spans : Spans load above path node) (branch : above ++ path ++ [byte] <+: key)
      (old : node.find? byte = some child)
      (below : Attempt load key value (above ++ path ++ [byte]) child done) :
      Attempt load key value above (inner node)
        (done.within fun child => inner (node.replace byte child))

theorem attempt_insertAtLeaf {existing : UInt64} (hold : above <+: load existing)
    (hchecked : Key.check (load existing) = .ok ()) (hkey : above <+: key) :
    Attempt load key value above (leaf existing)
      (insertAtLeaf load existing key above.length value) := by
  rw [insertAtLeaf]
  by_cases heq : load existing = key
  · rw [if_pos heq]
    exact .renew hkey heq
  · rw [if_neg heq]
    have hclash (hp : load existing <+: key ∨ key <+: load existing) :
        Clashes load (leaf existing) key :=
      ⟨existing, by rw [toList_leaf, List.mem_singleton], heq, hp⟩
    obtain ⟨e, he⟩ := hold
    obtain ⟨k, rfl⟩ := hkey
    simp only [← he, List.drop_left, Key.getElem?_append_add]
    rcases Key.commonLength_cases e k with
      ⟨p, x, y, e', k', rfl, rfl, hxy, hn⟩ | ⟨k', rfl, hn⟩ | ⟨y, e', rfl, hn⟩
    · simp only [hn, List.getElem?_append_right (Nat.le_refl _), Nat.sub_self,
        List.getElem?_cons_zero, List.take_left]
      refine .part (.leaf ?_ hchecked) hxy ?_
      · exact Key.branch_isPrefix_iff.2 ⟨e', he.symm⟩
      · exact Key.branch_isPrefix_iff.2 ⟨k', rfl⟩
    · rw [hn, List.getElem?_eq_none (Nat.le_refl _)]
      exact .clash (hclash (.inl ⟨k', by rw [← he, List.append_assoc]⟩))
    · rw [hn, List.getElem?_eq_none (l := k) (Nat.le_refl _)]
      have hclash := hclash (.inr ⟨y :: e', by rw [← he, List.append_assoc]⟩)
      split
      · next h => cases h
      · exact .clash hclash

namespace Spans

/-- A key that ends with the bytes above a node or inside its path clashes with every key below. -/
theorem clashes (h : Spans load above path node) (hp : key <+: above ++ path) :
    Clashes load (inner node) key := by
  obtain ⟨v, hv⟩ := h.fits.exists_mem
  obtain ⟨byte, child, hc, hv'⟩ := h.mem_toList.1 hv
  have hb := h.branch_isPrefix hc hv'
  have hk : key <+: load v := hp.trans ((List.prefix_append ..).trans hb)
  refine ⟨v, hv, fun heq => ?_, .inr hk⟩
  have := hb.length_le.trans (heq ▸ hp.length_le)
  rw [List.length_append, List.length_singleton] at this
  omega

theorem attempt_insertInPath {p p' k : List UInt8} {x y : UInt8}
    (h : Spans load above (p ++ x :: p') node) (hxy : x ≠ y) :
    Attempt load (above ++ (p ++ y :: k)) value above (inner node)
      (insertInPath node (p ++ x :: p') p.length (above ++ (p ++ y :: k)) above.length value) := by
  have hdrop : (p ++ x :: p').drop (p.length + 1) = p' := by
    rw [← List.drop_drop, List.drop_left, List.drop_one, List.tail_cons]
  simp only [insertInPath, Key.getElem?_append_add, List.getElem?_append_right (Nat.le_refl p.length),
    Nat.sub_self, List.getElem?_cons_zero, List.take_left, hdrop]
  exact .cut h hxy (Key.branch_isPrefix_iff.2 ⟨k, rfl⟩)

end Spans

/-- In every tree that fits, an insertion comes to one of these, for every key that goes on from the
bytes above the tree. -/
theorem Fits.attempt (h : tree.Fits load above) (hkey : above <+: key) :
    Attempt load key value above tree (tree.insertAt load key above.length value) := by
  induction h with
  | leaf starts checked =>
    rw [Tree.insertAt]
    exact attempt_insertAtLeaf starts checked hkey
  | @inner above node path valid path_eq below ih =>
    have h : Spans load above path node := ⟨valid, path_eq, below⟩
    obtain ⟨k, rfl⟩ := hkey
    rw [Tree.insertAt]
    simp only [h.fullPath_eq, h.length_path, List.drop_left]
    rcases Key.commonLength_cases path k with
      ⟨p, x, y, p', k', rfl, rfl, hxy, hn⟩ | ⟨k', rfl, hn⟩ | ⟨y, p', rfl, hn⟩
    · rw [hn, if_pos (by simp)]
      exact h.attempt_insertInPath hxy
    · rw [hn, if_neg (Nat.lt_irrefl _)]
      have hget := h.getElem?_append k'
      split
      · next hnone =>
        rw [hget, List.head?_eq_none_iff] at hnone
        subst hnone
        exact .clash (h.clashes (by rw [List.append_nil]))
      · next byte hbyte =>
        rw [hget] at hbyte
        obtain ⟨k', rfl⟩ := List.head?_eq_some_iff.1 hbyte
        have hkey : above ++ path ++ [byte] <+: above ++ (path ++ byte :: k') :=
          Key.branch_isPrefix_iff.2 ⟨k', rfl⟩
        split
        · next hc => exact .extend h hkey hc
        · next child hc =>
          have hd := ih byte child hc hkey
          rw [h.length_branch, h.length_path] at hd
          exact .descend h hkey hc hd
    · rw [hn, if_pos (by simp), insertInPath, Key.getElem?_append_add,
        List.getElem?_eq_none (Nat.le_refl _)]
      exact .clash (h.clashes ⟨y :: p', by rw [List.append_assoc]⟩)

/-! ## Where a key goes -/

/-- A fork has two children, the old tree and a new leaf. -/
theorem branchOff_eq {old : Tree} {x y : UInt8} (hxy : x ≠ y) (tree : Tree) (path : List UInt8)
    (value : UInt64) (events : List Event) :
    ∃ fork, branchOff tree path x old y value events = ⟨inner fork, .ok none, events⟩ ∧
      fork.Valid ∧ fork.path = .ofBytes path ∧ fork.kind = .four ∧ fork.count = 2 ∧
      ∀ b child, fork.find? b = some child ↔ b = x ∧ child = old ∨ b = y ∧ child = leaf value := by
  obtain ⟨fork, hfork, hvalid, hpath, hkind, hcount, hfind⟩ :=
    Node.fork_eq_ok (.ofBytes path) hxy old (leaf value)
  refine ⟨fork, by rw [branchOff, hfork], hvalid, hpath, hkind, hcount, fun b child => ?_⟩
  rw [hfind]
  by_cases hb : b = y
  · subst hb
    rw [Function.update_self, Option.some.injEq]
    simp [hxy.symm, eq_comm]
  · rw [Function.update_of_ne hb]
    by_cases hbx : b = x
    · subst hbx
      rw [Function.update_self, Option.some.injEq]
      simp [hb, eq_comm]
    · rw [Function.update_of_ne hbx]
      simp [hb, hbx]

/-- A key that goes on with another byte than a tree's keys do parts from all of them. -/
theorem Fits.parts_key {x y : UInt8} (h : tree.Fits load (above ++ path ++ [x])) (hxy : x ≠ y)
    (hkey : above ++ path ++ [y] <+: key) : ∀ v ∈ tree.toList, Key.Parts (load v) key :=
  fun _ hv => (Key.parts_of_ne hxy).extend (h.starts hv) hkey

/-- What is below a cut in a node's path. -/
theorem Spans.cut {p p' : List UInt8} {x : UInt8} (h : Spans load above (p ++ x :: p') node) :
    (inner { node with path := .ofBytes p' }).Fits load (above ++ p ++ [x]) ∧
      (inner { node with path := .ofBytes p' }).toList = (inner node).toList := by
  constructor
  · refine .inner p' ⟨h.valid.layout, h.valid.fewest⟩ rfl fun byte child hc => ?_
    have := h.below byte child hc
    rwa [← List.append_assoc above p, List.append_cons (above ++ p)] at this
  · rw [toList_inner, toList_inner]
    rfl

theorem not_clashes_of_parts (h : ∀ v ∈ tree.toList, Key.Parts (load v) key) :
    ¬ Clashes load tree key := by
  rintro ⟨v, hv, -, hp | hp⟩
  · exact (h v hv).not_isPrefix hp
  · exact (h v hv).symm.not_isPrefix hp

theorem holder?_of_parts (h : ∀ v ∈ tree.toList, Key.Parts (load v) key) :
    holder? load tree key = none :=
  holder?_eq_none_iff.2 fun v hv => (h v hv).ne

namespace Spans

/-- The keys outside a child part from a key that leads to it. -/
theorem holder?_eq (h : Spans load above path node) (hkey : above ++ path ++ [byte] <+: key)
    (hc : node.find? byte = some child) :
    holder? load (inner node) key = holder? load child key := by
  refine Option.ext fun v => ?_
  rw [h.fits.holder?_eq_some_iff, (h.below byte child hc).holder?_eq_some_iff,
    mem_toList_under h.valid.layout byte]
  constructor
  · rintro ⟨⟨child', hc', hv⟩ | hv, heq⟩
    · exact ⟨Option.some.inj (hc.symm.trans hc') ▸ hv, heq⟩
    · exact absurd heq (h.parts_elsewhere hkey hv).ne
  · rintro ⟨hv, heq⟩
    exact ⟨.inl ⟨child, hc, hv⟩, heq⟩

theorem clashes_iff (h : Spans load above path node) (hkey : above ++ path ++ [byte] <+: key)
    (hc : node.find? byte = some child) :
    Clashes load (inner node) key ↔ Clashes load child key := by
  constructor
  · rintro ⟨v, hv, hne, hp⟩
    rcases (mem_toList_under h.valid.layout byte).1 hv with ⟨child', hc', hv⟩ | hv
    · exact ⟨v, Option.some.inj (hc.symm.trans hc') ▸ hv, hne, hp⟩
    · have hparts := h.parts_elsewhere hkey hv
      rcases hp with hp | hp
      · exact absurd hp hparts.not_isPrefix
      · exact absurd hp hparts.symm.not_isPrefix
  · rintro ⟨v, hv, hne, hp⟩
    exact ⟨v, (mem_toList_under h.valid.layout byte).2 (.inl ⟨child, hc, hv⟩), hne, hp⟩

end Spans

/-! ## The answer -/

/-- A key is rejected, and the tree stays as it is, just when it clashes. Otherwise the payload that
had the key is answered. -/
theorem Attempt.decides (h : Attempt load key value above tree done) :
    (Clashes load tree key ∧ done = reject tree (.key .notPrefixFree)) ∨
      (¬ Clashes load tree key ∧ done.answer = .ok (holder? load tree key)) := by
  induction h with
  | clash clashes => exact .inl ⟨clashes, rfl⟩
  | @renew above existing starts same =>
    refine .inr ⟨?_, by simp [holder?, toList_leaf, same]⟩
    rintro ⟨v, hv, hne, -⟩
    rw [toList_leaf, List.mem_singleton] at hv
    exact hne (hv ▸ same)
  | @part above path existing x y old ne branch =>
    have hparts := old.parts_key ne branch
    obtain ⟨fork, heq, -⟩ := branchOff_eq ne (leaf existing) path value []
    exact .inr ⟨not_clashes_of_parts hparts, by rw [heq, holder?_of_parts hparts]⟩
  | @cut above p p' node x y old ne branch =>
    -- The node below the cut has lost the first bytes of its path, but none of its payloads.
    have hparts := old.cut.1.parts_key ne branch
    rw [old.cut.2] at hparts
    obtain ⟨fork, heq, -⟩ := branchOff_eq ne (inner node) p value
      [.split node.path.length p.length above.length]
    exact .inr ⟨not_clashes_of_parts hparts, by rw [heq, holder?_of_parts hparts]⟩
  | extend spans branch new =>
    have hparts := spans.parts_key branch new
    obtain ⟨node', events, hadd, -⟩ := spans.valid.add new (leaf value)
    refine .inr ⟨not_clashes_of_parts hparts, ?_⟩
    rw [insertInNode, hadd, holder?_of_parts hparts]
  | descend spans branch old _ ih =>
    -- Keys under other bytes part from the new one, so that the child decides for the node.
    rw [spans.clashes_iff branch old, spans.holder?_eq branch old]
    refine ih.imp_left fun hreject => ⟨hreject.1, ?_⟩
    rw [hreject.2, reject, reject, Outcome.within, Outcome.unchanged, Outcome.unchanged,
      Node.replace_self old]

/-! ## The tree -/

/-- A tree is another one with a payload put in under its key. -/
structure Gains (load : Loader) (tree : Tree) (above : Key) (value : UInt64) (tree' : Tree) :
    Prop where
  fits : tree'.Fits load above
  mem : ∀ v, v ∈ tree'.toList ↔ v = value ∨ v ∈ tree.toList ∧ load v ≠ load value

/-- The outcome of putting a payload into a tree under its key. -/
structure Inserts (load : Loader) (tree : Tree) (above : Key) (value : UInt64)
    (done : Insertion) : Prop extends Gains load tree above value done.state where
  answer : done.answer = .ok (holder? load tree (load value))

/-- The children of a fork, the old tree and a leaf whose key goes on with another byte, go on from its
path. -/
theorem spans_branchOff {old : Tree} {x y : UInt8} (hold : old.Fits load (above ++ path ++ [x]))
    (hxy : x ≠ y) (hy : above ++ path ++ [y] <+: load value)
    (hcheck : Key.check (load value) = .ok ()) (tree : Tree) (events : List Event) :
    ∃ fork, branchOff tree path x old y value events = ⟨inner fork, .ok none, events⟩ ∧
      Spans load above path fork ∧ fork.kind = .four ∧ fork.count = 2 ∧
      ∀ b child, fork.find? b = some child ↔ b = x ∧ child = old ∨ b = y ∧ child = leaf value := by
  obtain ⟨fork, heq, hvalid, hpath, hkind, hcount, hfind⟩ := branchOff_eq hxy tree path value events
  refine ⟨fork, heq, ⟨hvalid, hpath, fun b child hc => ?_⟩, hkind, hcount, hfind⟩
  rcases (hfind b child).1 hc with ⟨rfl, rfl⟩ | ⟨rfl, rfl⟩
  · exact hold
  · exact .leaf hy hcheck

/-- A tree and a new leaf whose keys part from the tree's become the children of a fork. -/
theorem gains_branchOff {old : Tree} {x y : UInt8} {events : List Event}
    (hold : old.Fits load (above ++ path ++ [x])) (hlist : old.toList = tree.toList) (hxy : x ≠ y)
    (hy : above ++ path ++ [y] <+: load value) (hcheck : Key.check (load value) = .ok ()) :
    Gains load tree above value (branchOff tree path x old y value events).state := by
  have hparts := hold.parts_key hxy hy
  rw [hlist] at hparts
  obtain ⟨fork, heq, hspans, -, -, hfind⟩ := spans_branchOff hold hxy hy hcheck tree events
  rw [heq]
  refine ⟨hspans.fits, fun v => ?_⟩
  rw [hspans.mem_toList]
  constructor
  · rintro ⟨b, child, hc, hv⟩
    rcases (hfind b child).1 hc with ⟨rfl, rfl⟩ | ⟨rfl, rfl⟩
    · rw [hlist] at hv
      exact .inr ⟨hv, (hparts v hv).ne⟩
    · exact .inl (List.mem_singleton.1 (toList_leaf value ▸ hv))
  · rintro (rfl | ⟨hv, -⟩)
    · exact ⟨y, leaf v, (hfind _ _).2 (.inr ⟨rfl, rfl⟩), by rw [toList_leaf, List.mem_singleton]⟩
    · exact ⟨x, old, (hfind _ _).2 (.inl ⟨rfl, rfl⟩), hlist ▸ hv⟩

namespace Spans

/-- A node gets a leaf under a new byte. -/
theorem gains_insertInNode (h : Spans load above path node)
    (hkey : above ++ path ++ [byte] <+: load value) (hcheck : Key.check (load value) = .ok ())
    (hnew : node.find? byte = none) :
    Gains load (inner node) above value (insertInNode node byte value).state := by
  have hparts := h.parts_key hkey hnew
  obtain ⟨node', events, hadd, hvalid, hpath, hfind⟩ := h.valid.add hnew (leaf value)
  have hspans : Spans load above path node' := h.update hvalid hpath hfind (.leaf hkey hcheck)
  rw [insertInNode, hadd]
  refine ⟨hspans.fits, fun v => ?_⟩
  rw [mem_toList_update hvalid.layout hfind]
  constructor
  · rintro (⟨child, hc, hv⟩ | hv)
    · rw [← Option.some.inj hc, toList_leaf, List.mem_singleton] at hv
      exact .inl hv
    · have hv := (mem_toList_under h.valid.layout byte).2 (.inr hv)
      exact .inr ⟨hv, (hparts v hv).ne⟩
  · rintro (rfl | ⟨hv, -⟩)
    · exact .inl ⟨leaf v, rfl, by rw [toList_leaf, List.mem_singleton]⟩
    · rcases (mem_toList_under h.valid.layout byte).1 hv with ⟨child, hc, -⟩ | hv
      · rw [hnew] at hc
        cases hc
      · exact .inr hv

/-- A node has another child in the place of the one a key leads to. -/
theorem gains_replace (h : Spans load above path node)
    (hkey : above ++ path ++ [byte] <+: load value) (hc : node.find? byte = some child)
    {child' : Tree} (hg : Gains load child (above ++ path ++ [byte]) value child') :
    Gains load (inner node) above value (inner (node.replace byte child')) := by
  obtain ⟨hvalid, hfind⟩ := h.valid.replace (by rw [hc, Option.isSome_some]) child'
  have hspans : Spans load above path (node.replace byte child') := h.update hvalid rfl hfind hg.fits
  refine ⟨hspans.fits, fun v => ?_⟩
  rw [mem_toList_update hvalid.layout hfind, mem_toList_under h.valid.layout byte]
  constructor
  · rintro (⟨child'', hc', hv⟩ | hv)
    · rcases (hg.mem v).1 (Option.some.inj hc' ▸ hv) with hv | ⟨hv, hne⟩
      · exact .inl hv
      · exact .inr ⟨.inl ⟨child, hc, hv⟩, hne⟩
    · exact .inr ⟨.inr hv, (h.parts_elsewhere hkey hv).ne⟩
  · rintro (hv | ⟨⟨child'', hc', hv⟩ | hv, hne⟩)
    · exact .inl ⟨_, rfl, (hg.mem v).2 (.inl hv)⟩
    · have hv : v ∈ child.toList := Option.some.inj (hc.symm.trans hc') ▸ hv
      exact .inl ⟨_, rfl, (hg.mem v).2 (.inr ⟨hv, hne⟩)⟩
    · exact .inr hv

end Spans

/-- A payload that is put in under its key is in the tree afterwards, beside those with other keys. -/
theorem Attempt.gains (h : Attempt load (load value) value above tree done)
    (hcheck : Key.check (load value) = .ok ()) (hfree : ¬ Clashes load tree (load value)) :
    Gains load tree above value done.state := by
  induction h with
  | clash clashes => exact absurd clashes hfree
  | renew starts same =>
    refine ⟨.leaf starts hcheck, fun v => ?_⟩
    rw [toList_leaf, toList_leaf, List.mem_singleton, List.mem_singleton]
    constructor
    · exact .inl
    · rintro (hv | ⟨rfl, hne⟩)
      · exact hv
      · exact absurd same hne
  | part old ne branch => exact gains_branchOff old rfl ne branch hcheck
  | cut old ne branch => exact gains_branchOff old.cut.1 old.cut.2 ne branch hcheck
  | extend spans branch new => exact spans.gains_insertInNode branch hcheck new
  | descend spans branch old _ ih =>
    have hgains := ih fun hclash => hfree ((spans.clashes_iff branch old).2 hclash)
    exact spans.gains_replace branch old hgains

/-- Insertion is right in every tree, for every key that goes on from the bytes above the tree. -/
theorem Fits.insertAt (h : tree.Fits load above) (hkey : above <+: load value)
    (hcheck : Key.check (load value) = .ok ()) (hfree : ¬ Clashes load tree (load value)) :
    Inserts load tree above value (tree.insertAt load (load value) above.length value) := by
  have hattempt : Attempt load (load value) value above tree _ := h.attempt hkey
  exact ⟨hattempt.gains hcheck hfree, (hattempt.decides.resolve_left fun hc => hfree hc.1).2⟩

/-- A tree grows by one leaf, unless the new leaf takes the place of an old one. -/
theorem Inserts.length_eq (h : tree.Fits load above)
    (hi : Inserts load tree above value done) :
    done.state.toList.length =
      tree.toList.length + if holder? load tree (load value) = none then 1 else 0 := by
  have hnew : done.state.toList.Perm (value :: tree.toList.filter (load · ≠ load value)) := by
    refine (List.perm_ext_iff_of_nodup hi.fits.nodup ?_).2 fun v => ?_
    · exact List.nodup_cons.2 ⟨by simp, h.nodup.filter _⟩
    · rw [hi.mem]
      simp
  rw [hnew.length_eq, List.length_cons]
  cases hh : holder? load tree (load value) with
  | none =>
    have hne := holder?_eq_none_iff.1 hh
    rw [List.filter_eq_self.2 (by simpa using hne), if_pos rfl]
  | some w =>
    obtain ⟨hw, hkey⟩ := h.holder?_eq_some_iff.1 hh
    have hold : tree.toList.Perm (w :: tree.toList.filter (load · ≠ load value)) := by
      refine (List.perm_ext_iff_of_nodup h.nodup ?_).2 fun v => ?_
      · exact List.nodup_cons.2 ⟨by simp [hkey], h.nodup.filter _⟩
      · by_cases hv : load v = load value
        · simp only [List.mem_cons, List.mem_filter, hv, ne_eq, not_true, decide_false,
            Bool.false_eq_true, and_false, or_false]
          exact ⟨fun hm => h.eq_of_isPrefix hm hw ((hv.trans hkey.symm) ▸ List.prefix_rfl),
            fun he => he ▸ hw⟩
        · have hne : v ≠ w := fun he => hv (he ▸ hkey)
          simp [hv, hne]
    rw [hold.length_eq, List.length_cons, if_neg (by simp)]

end AdaptiveRadix.Tree
