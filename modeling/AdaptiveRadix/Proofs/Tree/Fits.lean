/-
The invariant of a tree: its paths and branch bytes are those of the keys of its leaves. The
tree stores no keys and only the beginning of a path, so the invariant says for every node
which bytes its path stands for, and asks them of every leaf below. From it follows that keys
at different leaves part, that the payloads stand in the order of their keys, and that any
leaf below a node shows the node's whole path.
-/
import AdaptiveRadix.Proofs.Key.Order
import AdaptiveRadix.Proofs.Tree.Leaves
import AdaptiveRadix.Path.Lemmas
import AdaptiveRadix.Tree.Path

namespace AdaptiveRadix.Tree

/-- A tree whose keys all begin with the bytes above it, and go on as its paths and branch bytes tell. -/
inductive Fits (load : Loader) : Key → Tree → Prop
  | leaf {above : Key} {value : UInt64} (starts : above <+: load value)
      (checked : Key.check (load value) = .ok ()) : Fits load above (.leaf value)
  | inner {above : Key} {node : Node Tree} (path : List UInt8) (valid : node.Valid)
      (path_eq : node.path = .ofBytes path)
      (below : ∀ byte child, node.find? byte = some child →
        Fits load (above ++ path ++ [byte]) child) : Fits load above (.inner node)

variable {load load' : Loader} {above path key : Key} {tree : Tree} {node node' : Node Tree}
  {byte : UInt8} {child : Tree} {v w : UInt64}

theorem Fits.every (h : tree.Fits load above) : tree.Every Node.Valid := by
  induction h with
  | leaf => exact .leaf _
  | inner path valid _ _ ih => exact .inner valid ih

theorem inhabited_of_valid (h : node.Valid) : Inhabited node := by
  refine ⟨h.layout, fun he => ?_⟩
  have hc : node.count = node.entries.length := h.layout.count_eq
  have := h.two_le_count
  rw [hc, he] at this
  exact absurd this (by decide)

theorem Fits.inhabited (h : tree.Fits load above) : tree.Every Inhabited :=
  h.every.imp fun _ => inhabited_of_valid

theorem Fits.laid (h : tree.Fits load above) : tree.Every (·.layout.Valid) :=
  h.every.imp fun _ hv => hv.layout

theorem Fits.exists_mem (h : tree.Fits load above) : ∃ v, v ∈ tree.toList :=
  List.exists_mem_of_ne_nil _ h.inhabited.toList_ne_nil

theorem Fits.payloads_eq (h : tree.Fits load above) : tree.payloads = tree.toList :=
  h.laid.payloads_eq

/-- The bytes above a tree begin all its keys. -/
theorem Fits.starts (h : tree.Fits load above) (hv : v ∈ tree.toList) : above <+: load v := by
  induction h with
  | leaf starts =>
    rw [toList_leaf, List.mem_singleton] at hv
    exact hv ▸ starts
  | inner path valid _ _ ih =>
    obtain ⟨byte, child, hc, hv⟩ := (mem_toList_inner valid.layout).1 hv
    have := ih byte child hc hv
    rw [List.append_assoc] at this
    exact (List.prefix_append ..).trans this

theorem Fits.checked (h : tree.Fits load above) (hv : v ∈ tree.toList) :
    Key.check (load v) = .ok () := by
  induction h with
  | leaf _ checked =>
    rw [toList_leaf, List.mem_singleton] at hv
    exact hv ▸ checked
  | inner path valid _ _ ih =>
    obtain ⟨byte, child, hc, hv⟩ := (mem_toList_inner valid.layout).1 hv
    exact ih byte child hc hv

/-- Fewer bytes than a key may have lie above a tree. -/
theorem Fits.length_le (h : tree.Fits load above) : above.length ≤ Key.maxLength := by
  obtain ⟨v, hv⟩ := h.exists_mem
  exact (h.starts hv).length_le.trans (Key.check_eq_ok_iff.1 (h.checked hv)).2

/-- Only the keys of the payloads in the tree matter. -/
theorem Fits.congr (h : tree.Fits load above) (heq : ∀ v ∈ tree.toList, load v = load' v) :
    tree.Fits load' above := by
  induction h with
  | @leaf above value starts checked =>
    have hv := heq value (by rw [toList_leaf, List.mem_singleton])
    exact .leaf (hv ▸ starts) (hv ▸ checked)
  | inner path valid path_eq _ ih =>
    refine .inner path valid path_eq fun byte child hc => ih byte child hc fun v hv => heq v ?_
    exact (mem_toList_inner valid.layout).2 ⟨byte, child, hc, hv⟩

/-! ## Nodes -/

/-- A node whose path stands for given bytes, with which all keys below go on. -/
structure Spans (load : Loader) (above : Key) (path : List UInt8) (node : Node Tree) : Prop where
  valid : node.Valid
  path_eq : node.path = .ofBytes path
  below : ∀ byte child, node.find? byte = some child → Fits load (above ++ path ++ [byte]) child

theorem Spans.fits (h : Spans load above path node) : (Tree.inner node).Fits load above :=
  .inner path h.valid h.path_eq h.below

theorem Fits.spans (h : (Tree.inner node).Fits load above) : ∃ path, Spans load above path node := by
  cases h with
  | inner path valid path_eq below => exact ⟨path, valid, path_eq, below⟩

namespace Spans

theorem mem_toList (h : Spans load above path node) :
    v ∈ (Tree.inner node).toList ↔
      ∃ byte child, node.find? byte = some child ∧ v ∈ child.toList :=
  mem_toList_inner h.valid.layout

/-- A key below a node goes on with the node's path and the byte of the branch it is under. -/
theorem branch_isPrefix (h : Spans load above path node) (hc : node.find? byte = some child)
    (hv : v ∈ child.toList) : above ++ path ++ [byte] <+: load v :=
  (h.below byte child hc).starts hv

theorem isPrefix (h : Spans load above path node) (hv : v ∈ (Tree.inner node).toList) :
    above ++ path <+: load v := by
  obtain ⟨byte, child, hc, hv⟩ := h.mem_toList.1 hv
  exact (List.prefix_append ..).trans (h.branch_isPrefix hc hv)

theorem parts_elsewhere (h : Spans load above path node)
    (hkey : above ++ path ++ [byte] <+: key) (hv : Elsewhere node byte v) :
    Key.Parts (load v) key := by
  obtain ⟨b, child, hb, hc, hv⟩ := hv
  exact (Key.parts_of_ne hb).extend (h.branch_isPrefix hc hv) hkey

/-- A key that goes on where a node has no child parts from all keys below. -/
theorem parts_key (h : Spans load above path node) (hkey : above ++ path ++ [byte] <+: key)
    (hnew : node.find? byte = none) : ∀ v ∈ (inner node).toList, Key.Parts (load v) key := by
  intro v hv
  rcases (mem_toList_under h.valid.layout byte).1 hv with ⟨child, hc, -⟩ | hv
  · rw [hnew] at hc
    cases hc
  · exact h.parts_elsewhere hkey hv

theorem length_lt (h : Spans load above path node) :
    above.length + path.length < Key.maxLength := by
  obtain ⟨⟨byte, child⟩, he⟩ := List.exists_mem_of_ne_nil _ (inhabited_of_valid h.valid).2
  have := (h.below byte child ((Node.mem_entries h.valid.layout).1 he)).length_le
  simp only [List.length_append, List.length_singleton] at this
  omega

theorem length_lt_size (h : Spans load above path node) : path.length < UInt32.size := by
  have := h.length_lt
  have : Key.maxLength < UInt32.size := by decide
  omega

theorem length_path (h : Spans load above path node) : node.path.length = path.length := by
  rw [h.path_eq, Path.length_ofBytes h.length_lt_size]

/-- The depth of the children of a node. -/
theorem length_branch (h : Spans load above path node) (byte : UInt8) :
    (above ++ path ++ [byte]).length = above.length + node.path.length + 1 := by
  rw [List.length_append, List.length_append, List.length_singleton, h.length_path]

/-- The byte that decides where a key goes on below a node. -/
theorem getElem?_append (h : Spans load above path node) (k : List UInt8) :
    (above ++ (path ++ k))[above.length + node.path.length]? = k.head? := by
  rw [h.length_path, Key.getElem?_append_add, List.getElem?_append_right (Nat.le_refl _),
    Nat.sub_self, List.head?_eq_getElem?]

theorem inline_path (h : Spans load above path node) :
    node.path.inline = path.take Path.capacity := by
  rw [h.path_eq, Path.inline_ofBytes h.length_lt_size]

/-- The path comes out whole: any leaf below the node would have shown it. -/
theorem fullPath_eq (h : Spans load above path node) :
    node.fullPath load above.length = path := by
  rw [Node.fullPath]
  split
  · have hv : (Tree.inner node).minimum? = (Tree.inner node).toList.head? :=
      h.fits.inhabited.minimum?_eq
    obtain ⟨v, rest, hl⟩ := List.exists_cons_of_ne_nil h.fits.inhabited.toList_ne_nil
    obtain ⟨s, hs⟩ := h.isPrefix (hl ▸ List.mem_cons_self : v ∈ (Tree.inner node).toList)
    rw [hv, hl, List.head?_cons, Option.elim_some, h.length_path, ← hs, List.append_assoc,
      List.drop_left, List.take_left]
  · next ht =>
    rw [Path.isTruncated_iff, h.length_path] at ht
    rw [h.inline_path, List.take_of_length_le (Nat.le_of_not_lt ht)]

/-- A node with another child under a byte. -/
theorem update (h : Spans load above path node) (hvalid : node'.Valid)
    (hpath : node'.path = node.path)
    (hfind : node'.find? = Function.update node.find? byte (some child))
    (hchild : child.Fits load (above ++ path ++ [byte])) : Spans load above path node' := by
  refine ⟨hvalid, hpath.trans h.path_eq, fun b child' hc => ?_⟩
  rw [hfind] at hc
  by_cases hb : b = byte
  · rw [hb, Function.update_self] at hc
    exact Option.some.inj hc ▸ hb ▸ hchild
  · rw [Function.update_of_ne hb] at hc
    exact h.below b child' hc

end Spans

/-! ## The order of the leaves -/

/-- Keys at different leaves part, and the payloads stand in the order of the keys. -/
theorem Fits.ascending (h : tree.Fits load above) :
    tree.toList.Pairwise fun v w => Key.PartsBelow (load v) (load w) := by
  induction h with
  | leaf => exact toList_leaf _ ▸ List.pairwise_singleton ..
  | @inner above node path valid path_eq below ih =>
    rw [toList_inner, List.pairwise_flatMap]
    refine ⟨fun ⟨byte, child⟩ he => ih byte child ((Node.mem_entries valid.layout).1 he), ?_⟩
    refine List.Pairwise.imp_of_mem (fun {e f} he hf hlt v hv w hw => ?_) valid.layout.ascending
    have hv := (below e.1 e.2 ((Node.mem_entries valid.layout).1 he)).starts hv
    have hw := (below f.1 f.2 ((Node.mem_entries valid.layout).1 hf)).starts hw
    exact (Key.partsBelow_of_lt hlt).extend hv hw

theorem Fits.parts (h : tree.Fits load above) (hv : v ∈ tree.toList) (hw : w ∈ tree.toList)
    (hne : v ≠ w) : Key.Parts (load v) (load w) := by
  have hs : tree.toList.Pairwise fun v w => Key.Parts (load v) (load w) := h.ascending.imp .inl
  have : Std.Symm fun v w => Key.Parts (load v) (load w) := ⟨fun _ _ hp => hp.symm⟩
  exact hs.forall hv hw hne

/-- No key in a tree begins another. -/
theorem Fits.eq_of_isPrefix (h : tree.Fits load above) (hv : v ∈ tree.toList)
    (hw : w ∈ tree.toList) (hp : load v <+: load w) : v = w := by
  by_contra hne
  exact (h.parts hv hw hne).not_isPrefix hp

theorem Fits.nodup (h : tree.Fits load above) : tree.toList.Nodup :=
  h.ascending.imp fun hp => by rintro rfl; exact List.lt_irrefl _ hp.lt

/-! ## The payload of a key -/

/-- The payload whose key is the given one. -/
def holder? (load : Loader) (tree : Tree) (key : Key) : Option UInt64 :=
  tree.toList.find? fun v => load v = key

theorem holder?_eq_none_iff : holder? load tree key = none ↔ ∀ v ∈ tree.toList, load v ≠ key := by
  simp [holder?]

theorem Fits.holder?_eq_some_iff (h : tree.Fits load above) :
    holder? load tree key = some v ↔ v ∈ tree.toList ∧ load v = key := by
  constructor
  · intro hf
    exact ⟨List.mem_of_find?_eq_some hf, by simpa using List.find?_some hf⟩
  · rintro ⟨hv, rfl⟩
    cases hf : holder? load tree (load v) with
    | none => exact absurd rfl (holder?_eq_none_iff.1 hf v hv)
    | some w =>
      have hw : load w = load v := by simpa using List.find?_some hf
      rw [h.eq_of_isPrefix (List.mem_of_find?_eq_some hf) hv (hw ▸ List.prefix_rfl)]

end AdaptiveRadix.Tree
