/-
The leaves of a tree whose nodes are in order. The two ends of the tree are the ends of its list
of payloads, and a walk meets the payloads in the order of that list.
-/
import AdaptiveRadix.Proofs.Node.Cursor
import AdaptiveRadix.Proofs.Node.Occupied
import AdaptiveRadix.Tree.Walk

namespace AdaptiveRadix

/-- Every node of a tree has a property. -/
inductive Tree.Every (p : Node Tree → Prop) : Tree → Prop
  | leaf (value : UInt64) : Every p (.leaf value)
  | inner {node : Node Tree} (holds : p node)
      (below : ∀ byte child, node.find? byte = some child → Every p child) : Every p (.inner node)

namespace Tree

variable {node node' : Node Tree} {tree : Tree} {byte : UInt8} {v : UInt64}
  {p q : Node Tree → Prop}

theorem Every.imp (h : ∀ node, p node → q node) (ht : tree.Every p) : tree.Every q := by
  induction ht with
  | leaf value => exact .leaf value
  | inner holds _ ih => exact .inner (h _ holds) ih

theorem mem_toList_inner (h : node.layout.Valid) :
    v ∈ (inner node).toList ↔ ∃ byte child, node.find? byte = some child ∧ v ∈ child.toList := by
  rw [toList_inner, List.mem_flatMap]
  constructor
  · rintro ⟨⟨byte, child⟩, he, hv⟩
    exact ⟨byte, child, (Node.mem_entries h).1 he, hv⟩
  · rintro ⟨byte, child, hc, hv⟩
    exact ⟨(byte, child), (Node.mem_entries h).2 hc, hv⟩

/-! ## Payloads under one byte and elsewhere -/

/-- A payload is below a node under another byte. -/
def Elsewhere (node : Node Tree) (byte : UInt8) (v : UInt64) : Prop :=
  ∃ b child, b ≠ byte ∧ node.find? b = some child ∧ v ∈ child.toList

theorem mem_toList_update (h : node'.layout.Valid) {slot : Option Tree}
    (hf : node'.find? = Function.update node.find? byte slot) :
    v ∈ (inner node').toList ↔
      (∃ child, slot = some child ∧ v ∈ child.toList) ∨ Elsewhere node byte v := by
  rw [mem_toList_inner h, hf]
  constructor
  · rintro ⟨b, child, hc, hv⟩
    by_cases hb : b = byte
    · rw [hb, Function.update_self] at hc
      exact .inl ⟨child, hc, hv⟩
    · rw [Function.update_of_ne hb] at hc
      exact .inr ⟨b, child, hb, hc, hv⟩
  · rintro (⟨child, hc, hv⟩ | ⟨b, child, hb, hc, hv⟩)
    · exact ⟨byte, child, by rw [Function.update_self, hc], hv⟩
    · exact ⟨b, child, by rw [Function.update_of_ne hb, hc], hv⟩

theorem mem_toList_under (h : node.layout.Valid) (byte : UInt8) :
    v ∈ (inner node).toList ↔
      (∃ child, node.find? byte = some child ∧ v ∈ child.toList) ∨ Elsewhere node byte v :=
  mem_toList_update h (Function.update_eq_self ..).symm

/-! ## The ends of a tree -/

/-- A node in order that has children. -/
def Inhabited (node : Node Tree) : Prop :=
  node.layout.Valid ∧ node.entries ≠ []

theorem Every.toList_ne_nil (h : tree.Every Inhabited) : tree.toList ≠ [] := by
  induction h with
  | leaf value => simp [toList_leaf]
  | @inner node holds _ ih =>
    obtain ⟨⟨byte, child⟩, rest, he⟩ := List.exists_cons_of_ne_nil holds.2
    have hc : node.find? byte = some child := (Node.mem_entries holds.1).1 (he ▸ List.mem_cons_self)
    obtain ⟨v, hv⟩ := List.exists_mem_of_ne_nil _ (ih byte child hc)
    exact List.ne_nil_of_mem ((mem_toList_inner holds.1).2 ⟨byte, child, hc, hv⟩)

theorem minimum?_inner (node : Node Tree) :
    (inner node).minimum? = node.first?.bind fun entry => entry.2.minimum? := by
  rw [minimum?]
  split
  · next hf => rw [hf, Option.bind_some]
  · next hf => rw [hf, Option.bind_none]

theorem maximum?_inner (node : Node Tree) :
    (inner node).maximum? = node.last?.bind fun entry => entry.2.maximum? := by
  rw [maximum?]
  split
  · next hf => rw [hf, Option.bind_some]
  · next hf => rw [hf, Option.bind_none]

/-- Among children none of which is empty, the first payload is in the first child. -/
theorem head?_flatMap_toList {entries : List (UInt8 × Tree)}
    (h : ∀ entry ∈ entries, entry.2.toList ≠ [] ∧ entry.2.minimum? = entry.2.toList.head?) :
    (entries.flatMap fun entry => entry.2.toList).head? =
      entries.head?.bind fun entry => entry.2.minimum? := by
  cases entries with
  | nil => rfl
  | cons entry rest =>
    obtain ⟨hne, hmin⟩ := h entry List.mem_cons_self
    rw [List.flatMap_cons, List.head?_append, List.head?_cons, Option.bind_some, hmin,
      List.head?_eq_some_head hne, Option.some_or]

theorem getLast?_flatMap_toList {entries : List (UInt8 × Tree)}
    (h : ∀ entry ∈ entries, entry.2.toList ≠ [] ∧ entry.2.maximum? = entry.2.toList.getLast?) :
    (entries.flatMap fun entry => entry.2.toList).getLast? =
      entries.getLast?.bind fun entry => entry.2.maximum? := by
  rcases List.eq_nil_or_concat entries with rfl | ⟨rest, entry, rfl⟩
  · rfl
  · rw [List.concat_eq_append] at h ⊢
    obtain ⟨hne, hmax⟩ := h entry List.mem_concat_self
    rw [List.flatMap_append, List.getLast?_append, List.flatMap_singleton, List.getLast?_concat,
      Option.bind_some, hmax, List.getLast?_eq_some_getLast hne, Option.some_or]

theorem Every.minimum?_eq (h : tree.Every Inhabited) : tree.minimum? = tree.toList.head? := by
  induction h with
  | leaf value => rw [minimum?, toList_leaf, List.head?_cons]
  | @inner node holds below ih =>
    rw [minimum?_inner, toList_inner, Node.first?_eq holds.1]
    refine (head?_flatMap_toList fun entry he => ?_).symm
    have hc := (Node.mem_entries holds.1).1 he
    exact ⟨(below _ _ hc).toList_ne_nil, ih _ _ hc⟩

theorem Every.maximum?_eq (h : tree.Every Inhabited) : tree.maximum? = tree.toList.getLast? := by
  induction h with
  | leaf value => rw [maximum?, toList_leaf, List.getLast?_singleton]
  | @inner node holds below ih =>
    rw [maximum?_inner, toList_inner, Node.last?_eq holds.1]
    refine (getLast?_flatMap_toList fun entry he => ?_).symm
    have hc := (Node.mem_entries holds.1).1 he
    exact ⟨(below _ _ hc).toList_ne_nil, ih _ _ hc⟩

end Tree

/-! ## Walking through a tree -/

namespace Walk

/-- Pushed children come before what was pending, in the reverse order. -/
theorem push_eq (children : List (UInt8 × Tree)) (pending : List Tree) :
    push children pending = (children.map Prod.snd).reverse ++ pending := by
  induction children generalizing pending with
  | nil => rfl
  | cons entry children ih =>
    rw [push, List.foldl_cons]
    exact (ih (entry.2 :: pending)).trans (by simp)

variable {pending : List Tree}

/-- A step of the walk takes the first of the payloads to come. -/
theorem nextOf_eq (h : ∀ tree ∈ pending, tree.Every (·.layout.Valid)) :
    (nextOf pending).1 = (pending.flatMap Tree.toList).head? ∧
      (nextOf pending).2.flatMap Tree.toList = (pending.flatMap Tree.toList).tail ∧
      ∀ tree ∈ (nextOf pending).2, tree.Every (·.layout.Valid) := by
  fun_induction nextOf pending with
  | case1 => simp
  | case2 value pending =>
    simp only [List.flatMap_cons, Tree.toList_leaf]
    exact ⟨rfl, rfl, fun tree ht => h tree (List.mem_cons_of_mem _ ht)⟩
  | case3 node pending ih =>
    obtain ⟨hnode, hrest⟩ := List.forall_mem_cons.1 h
    cases hnode with
    | inner holds below =>
      have hpush : push node.descending pending = node.entries.map Prod.snd ++ pending := by
        rw [push_eq, Node.descending_eq holds, List.map_reverse, List.reverse_reverse]
      have hlist : (push node.descending pending).flatMap Tree.toList =
          (Tree.inner node :: pending).flatMap Tree.toList := by
        rw [hpush, List.flatMap_append, List.flatMap_cons, Tree.toList_inner, List.flatMap_map]
      rw [← hlist]
      refine ih fun tree ht => ?_
      rw [hpush, List.mem_append, List.mem_map] at ht
      rcases ht with ⟨⟨byte, child⟩, he, rfl⟩ | ht
      · exact below byte child ((Node.mem_entries holds).1 he)
      · exact hrest tree ht

theorem toList_eq (walk : Walk) (h : ∀ tree ∈ walk.pending, tree.Every (·.layout.Valid)) :
    walk.toList = walk.pending.flatMap Tree.toList := by
  fun_induction Walk.toList walk with
  | case1 walk value rest hn ih =>
    obtain ⟨hhead, htail, hvalid⟩ := nextOf_eq h
    obtain ⟨hv, rfl⟩ := Prod.mk.inj hn
    rw [hv] at hhead
    rw [ih hvalid, htail]
    exact List.cons_head?_tail hhead.symm
  | case2 walk rest hn =>
    obtain ⟨hhead, -, -⟩ := nextOf_eq h
    obtain ⟨hv, rfl⟩ := Prod.mk.inj hn
    rw [hv] at hhead
    exact (List.head?_eq_none_iff.1 hhead.symm).symm

end Walk

/-- The walk through a tree meets its payloads in ascending order of the branch bytes. -/
theorem Tree.Every.payloads_eq {tree : Tree} (h : tree.Every (·.layout.Valid)) :
    tree.payloads = tree.toList := by
  have hwalk := Walk.toList_eq (.ofTree tree) fun t ht => List.mem_singleton.1 ht ▸ h
  exact hwalk.trans (List.flatMap_singleton ..)

end AdaptiveRadix
