/-
An index under loaders that are not to be trusted. In a run each step has a loader of its own, which
may answer anything; still the length that the index keeps is the number of its payloads, each node
has as many children as suit its kind, laid out in order, and no count is lowered that is zero
already. Only where a key that is loaded ends above its own leaf can a path be lost.
-/
import AdaptiveRadix.Proofs.Index.Paths
import AdaptiveRadix.Proofs.Tree.AnyLoader

namespace AdaptiveRadix

/-- How many children a node of a kind may have. -/
def Kind.occupancy : Kind → Finset Nat
  | .four => Finset.Icc 2 4
  | .sixteen => Finset.Icc 4 16
  | .fortyEight => Finset.Icc 13 48
  | .full => Finset.Icc 38 256

theorem Kind.mem_occupancy {kind : Kind} {count : Nat} :
    count ∈ kind.occupancy ↔ kind.fewest ≤ count ∧ count ≤ kind.capacity := by
  cases kind <;> simp [occupancy, fewest, shrinkAt?, capacity]

/-- A node in order, with as many children as suit its kind and as it counts. A count that goes down
with a child is that of a node which has the child, also when a second child goes after the first. -/
structure Node.Intact {α : Type} (node : Node α) : Prop where
  layout : node.layout.Valid
  entries : node.entries.length = node.count
  occupancy : node.count ∈ node.kind.occupancy
  remove : ∀ byte, (node.find? byte).isSome → (node.remove byte).2.count + 1 = node.count
  removeNext : ∀ byte next, (node.find? byte).isSome → ((node.remove byte).2.find? next).isSome →
    ((node.remove byte).2.remove next).2.count + 1 = (node.remove byte).2.count

theorem Node.Valid.intact {α : Type} {node : Node α} (h : node.Valid) : node.Intact where
  layout := h.layout
  entries := h.layout.count_eq.symm
  occupancy := Kind.mem_occupancy.2 ⟨h.fewest, h.layout.count_le⟩
  remove _ hold := (Node.remove_eq h.layout hold).2.1
  removeNext _ _ hold hnext := (Node.remove_eq (Node.remove_eq h.layout hold).1 hnext).2.1

/-- A call that may change an index, with the loader that it is given. -/
inductive IndexCall where
  | insert (load : Loader) (key : Key) (value : UInt64)
  | erase (load : Loader) (key : Key)
  | clear

namespace Tree

variable {load : Loader} {key : Key} {root tree : Tree} {node : Node Tree} {v value : UInt64}
  {depth : Nat} {p : Node Tree → Prop}

theorem Within.every (hw : root.Within tree depth) (h : root.Every p) : tree.Every p := by
  induction hw with
  | root => exact h
  | child _ hc ih =>
    cases ih with
    | inner _ below => exact below _ _ hc

/-- The smallest leaf below a node is that below one of its children. -/
theorem Inhabited.exists_first (h : Inhabited node) :
    ∃ byte child, node.find? byte = some child ∧ (inner node).minimum? = child.minimum? := by
  obtain ⟨⟨byte, child⟩, rest, he⟩ := List.exists_cons_of_ne_nil h.2
  refine ⟨byte, child, (Node.mem_entries h.1).1 (he ▸ List.mem_cons_self), ?_⟩
  rw [minimum?_inner, Node.first?_eq h.1, he, List.head?_cons, Option.bind_some]

/-- The smallest leaf of a tree lies in the tree, and not above it. -/
theorem Within.exists_minimum (hw : root.Within tree depth) (h : tree.Every Inhabited) :
    ∃ v below, tree.minimum? = some v ∧ root.Within (leaf v) below ∧ depth ≤ below := by
  induction h generalizing depth with
  | leaf value => exact ⟨value, depth, by rw [minimum?], hw, Nat.le_refl depth⟩
  | inner inhabited _ ih =>
    obtain ⟨byte, child, hc, hmin⟩ := inhabited.exists_first
    obtain ⟨v, below, hv, hleaf, hle⟩ := ih byte child hc (hw.child hc)
    exact ⟨v, below, hmin.trans hv, hleaf, by omega⟩

/-- A loader gives each leaf of a tree a key that does not end above the leaf. -/
def LongKeys (load : Loader) (root : Tree) : Prop :=
  ∀ v depth, root.Within (leaf v) depth → depth ≤ (load v).length

/-- Of a path that is not stored in full, no byte is missing in the key of the smallest leaf. -/
theorem Within.length_fullPath (hw : root.Within (inner node) depth) (h : (inner node).Every Inhabited)
    (hlong : root.LongKeys load) : (node.fullPath load depth).length = node.path.length := by
  cases h with
  | inner inhabited below =>
    obtain ⟨byte, child, hc, hmin⟩ := inhabited.exists_first
    obtain ⟨v, under, hv, hleaf, hle⟩ := (hw.child hc).exists_minimum (below byte child hc)
    have hlength := hlong v under hleaf
    unfold Node.fullPath
    split
    · rw [hmin, hv, Option.elim_some, List.length_take, List.length_drop]
      omega
    · next ht =>
      rw [Path.isTruncated_iff] at ht
      rw [Path.length_inline]
      omega

theorem branchOff_ne_lostPath {path : List UInt8} {x y : UInt8} {old : Tree} {events : List Event}
    (length i : Nat) :
    (branchOff tree path x old y value events).answer ≠ .error (.lostPath length i) := by
  unfold branchOff
  split <;> simp [reject, Outcome.unchanged]

/-- Where no key ends above its leaf, an insertion finds every byte of a path that it has to cut. -/
theorem Within.insertAt_ne_lostPath (hw : root.Within tree depth) (h : tree.Every Inhabited)
    (hlong : root.LongKeys load) (length i : Nat) :
    (tree.insertAt load key depth value).answer ≠ .error (.lostPath length i) := by
  induction h generalizing depth with
  | leaf existing =>
    rw [Tree.insertAt, insertAtLeaf]
    split
    · simp
    dsimp only
    split
    · exact branchOff_ne_lostPath length i
    · simp [reject, Outcome.unchanged]
  | @inner node inhabited below ih =>
    have hpath := hw.length_fullPath (.inner inhabited below) hlong
    rw [Tree.insertAt]
    split
    · next hlt =>
      rw [insertInPath]
      split
      · simp [reject, Outcome.unchanged]
      · next hnone =>
        rw [List.getElem?_eq_none_iff] at hnone
        omega
      · exact branchOff_ne_lostPath length i
    split
    · simp [reject, Outcome.unchanged]
    next byte _ =>
    split
    · unfold insertInNode
      split <;> simp [reject, Outcome.unchanged]
    · next child hc => exact ih byte child hc (hw.child hc)

end Tree

namespace Index

def call (index : Index) : IndexCall → Index
  | .insert load key value => (index.insert load key value).state
  | .erase load key => (index.erase load key).state
  | .clear => index.clear

/-- The index after calls made one after the other. -/
def run (index : Index) (calls : List IndexCall) : Index :=
  calls.foldl call index

/-- What no loader can take from an index: its nodes are in order, and its length is that of the list
of its payloads. -/
structure Sound (index : Index) : Prop where
  valid : ∀ root, index.root = some root → root.Every Node.Valid
  length : index.length = index.leaves.length

variable {index : Index} {root : Tree} {load : Loader} {key : Key} {value : UInt64}

theorem sound_empty (policy : Policy) : (empty policy).Sound :=
  ⟨by simp [empty], rfl⟩

namespace Sound

/-- A tree in order, with its payloads counted, is all that an index needs. -/
theorem of_root (hr : index.root = some root) (valid : root.Every Node.Valid)
    (length : index.length = root.toList.length) : index.Sound where
  valid root' hr' := by
    obtain rfl := Option.some.inj (hr.symm.trans hr')
    exact valid
  length := by rw [leaves_some hr, length]

/-- An insertion adds a payload, puts one in the place of another, or changes nothing; and nothing not
for want of room. -/
theorem insert (h : index.Sound) (load : Loader) (key : Key) (value : UInt64) :
    (index.insert load key value).state.Sound ∧
      ∀ full, (index.insert load key value).answer ≠ .error (.noRoom full) := by
  unfold Index.insert
  split
  · exact ⟨h, by simp [Outcome.unchanged]⟩
  · next hr =>
    refine ⟨.of_root rfl (.leaf value) ?_, by simp⟩
    rw [h.length, leaves_none hr, Tree.toList_leaf, List.length_nil, List.length_singleton]
  · next root _ hr =>
    have hvalid := Tree.every_valid_insertAt load key 0 value (h.valid root hr)
    have hputs := Tree.Every.puts_insertAt load key 0 value (h.valid root hr)
    have hlength := h.length
    rw [leaves_some hr] at hlength
    generalize root.insertAt load key 0 value = done at hvalid hputs
    cases hputs with
    | more lo hi before_eq after_eq =>
      refine ⟨.of_root rfl hvalid ?_, by simp [Outcome.within]⟩
      simp only [Outcome.within, hlength, before_eq, after_eq, List.length_append, List.length_cons]
      omega
    | renewed lo hi before_eq after_eq =>
      refine ⟨.of_root rfl hvalid ?_, by simp [Outcome.within]⟩
      simp only [Outcome.within, hlength, before_eq, after_eq, List.length_append, List.length_cons]
    | refused room =>
      refine ⟨?_, fun full hfull => room full (Except.error.inj hfull)⟩
      simp only [Outcome.within, Tree.reject, Outcome.unchanged, ← hr]
      exact h

/-- An erasure takes one payload out and lowers the length by one, or changes nothing. -/
theorem erase (h : index.Sound) (load : Loader) (key : Key) :
    (index.erase load key).state.Sound ∧
      ∀ value, (index.erase load key).answer = some value →
        (index.erase load key).state.length + 1 = index.length := by
  unfold Index.erase
  split
  · exact ⟨h, by simp [Outcome.unchanged]⟩
  split
  · exact ⟨h, by simp [Outcome.unchanged]⟩
  · next value hr =>
    have hlength := h.length
    rw [leaves_some hr, Tree.toList_leaf, List.length_singleton] at hlength
    split
    · refine ⟨⟨by simp, ?_⟩, fun _ _ => ?_⟩
      · simp only [leaves, Option.elim_none, List.length_nil, hlength]
      · simp only [hlength]
    · exact ⟨h, by simp [Outcome.unchanged]⟩
  · next node hr =>
    have htakes := Tree.Every.takes_eraseAt load key 0 (h.valid _ hr)
    have hlength := h.length
    rw [leaves_some hr] at hlength
    generalize (Tree.inner node).eraseAt load key 0 = done at htakes
    cases htakes with
    | one lo hi before_eq after_eq valid =>
      simp only [before_eq, List.length_append, List.length_cons] at hlength
      refine ⟨.of_root rfl valid ?_, fun _ _ => ?_⟩
      · simp only [Outcome.within, Option.isSome_some, if_true, after_eq, List.length_append]
        omega
      · simp only [Outcome.within, Option.isSome_some, if_true]
        omega
    | nothing =>
      refine ⟨?_, by simp [Outcome.within, Outcome.unchanged]⟩
      simp only [Outcome.within, Outcome.unchanged, Option.isSome_none, Bool.false_eq_true, if_false,
        ← hr]
      exact h

theorem call (h : index.Sound) (c : IndexCall) : (index.call c).Sound := by
  cases c with
  | insert load key value => exact (h.insert load key value).1
  | erase load key => exact (h.erase load key).1
  | clear => exact sound_empty index.policy

theorem run (h : index.Sound) (calls : List IndexCall) : (index.run calls).Sound := by
  induction calls generalizing index with
  | nil => exact h
  | cons c calls ih => exact ih (h.call c)

end Sound

/-- What an index shows of being in order, whatever keys its payloads have. -/
structure Intact (index : Index) : Prop where
  leaves : index.leaves.length = index.length
  payloads : index.payloads.length = index.length
  stats : index.stats.leaves = index.length
  isEmpty : index.isEmpty ↔ index.length = 0
  nodes : ∀ root node depth, index.root = some root → root.Within (.inner node) depth → node.Intact

theorem Sound.intact (h : index.Sound) : index.Intact := by
  have hnodes : ∀ root node depth, index.root = some root → root.Within (.inner node) depth →
      node.Intact := by
    intro root node depth hr hw
    cases hw.every (h.valid root hr) with
    | inner valid _ => exact valid.intact
  have hlength := h.length
  have hstats : index.stats.leaves = index.length := index.leaves_stats.trans h.length.symm
  cases hr : index.root with
  | none =>
    rw [leaves_none hr] at hlength
    refine ⟨h.length.symm, ?_, hstats, ?_, hnodes⟩
    · rw [payloads, hr, hlength, Option.elim_none]
    · simp [isEmpty, hr, hlength]
  | some root =>
    have hvalid := h.valid root hr
    have hne := (hvalid.imp fun _ => Tree.inhabited_of_valid).toList_ne_nil
    rw [leaves_some hr] at hlength
    refine ⟨h.length.symm, ?_, hstats, ?_, hnodes⟩
    · rw [payloads, hr, hlength, Option.elim_some,
        (hvalid.imp fun _ hv => hv.layout).payloads_eq]
    · simp [isEmpty, hr, hlength, hne]

theorem Sound.insert_ne_lostPath (h : index.Sound)
    (hlong : ∀ root, index.root = some root → root.LongKeys load) (length i : Nat) :
    (index.insert load key value).answer ≠ .error (.lostPath length i) := by
  unfold Index.insert
  split
  · simp [Outcome.unchanged]
  · simp
  · next root _ hr =>
    have hinhabited := (h.valid root hr).imp fun _ => Tree.inhabited_of_valid
    exact Tree.Within.insertAt_ne_lostPath .root hinhabited (hlong root hr) length i

/-- After any run, with any loader at each step: the index is intact, the next insertion does not fail
for want of room, the next erasure that takes something out finds a length that can be lowered, and
where no key ends above its leaf no byte of a path is lost. -/
theorem run_intact (policy : Policy) (calls : List IndexCall) :
    let index := (empty policy).run calls
    index.Intact ∧
      (∀ load key value full, (index.insert load key value).answer ≠ .error (.noRoom full)) ∧
      (∀ load key value, (index.erase load key).answer = some value →
        (index.erase load key).state.length + 1 = index.length) ∧
      ∀ load, (∀ root, index.root = some root → root.LongKeys load) →
        ∀ key value length i,
          (index.insert load key value).answer ≠ .error (.lostPath length i) := by
  intro index
  have h : index.Sound := (sound_empty policy).run calls
  exact ⟨h.intact, fun load key value => (h.insert load key value).2,
    fun load key => (h.erase load key).2,
    fun load hlong key value length i => h.insert_ne_lostPath hlong length i⟩

/-- A loader that gives the first payload another key than it came in under, so that the same key comes
in a second time beside it. The index is intact all the same, and the payload goes out by the other
key. -/
theorem misled_intact :
    let misled : Loader := fun _ => [1, 2]
    let index := (empty .optimistic).run [.insert misled [1, 1] 1, .insert misled [1, 1] 2]
    index.length = 2 ∧ index.Intact ∧ (index.erase misled [1, 2]).state.length = 1 := by
  intro misled index
  have hlength : index.length = 2 := by cbv
  obtain ⟨hintact, -, herase, -⟩ :=
    run_intact .optimistic [.insert misled [1, 1] 1, .insert misled [1, 1] 2]
  have hless := herase misled [1, 2] 1 (by cbv)
  exact ⟨hlength, hintact, Nat.succ.inj (hless.trans hlength)⟩

end Index

end AdaptiveRadix
