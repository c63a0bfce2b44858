/-
The children of a node are those in its slots. A child that is found at an end, or by
reading the node through, is one of them.
-/
import AdaptiveRadix.Node.Cursor

namespace AdaptiveRadix

variable {α : Type}

/-- All slots of a layout, used or not. -/
def Layout.slots : Layout α → List (Option α)
  | .four run => run.slots
  | .sixteen run => run.slots
  | .fortyEight table => table.slots.toList
  | .full direct => direct.slots.toList

instance : Membership α (Layout α) where
  mem layout child := some child ∈ layout.slots

instance : Membership α (Node α) where
  mem node child := child ∈ node.layout

theorem Layout.mem_def {layout : Layout α} {child : α} :
    child ∈ layout ↔ some child ∈ layout.slots := Iff.rfl

theorem Node.mem_def {node : Node α} {child : α} : child ∈ node ↔ child ∈ node.layout := Iff.rfl

/-! ## One place -/

theorem SortedSlots.mem_of_entryAt? {run : SortedSlots α} {i : Nat} {entry : UInt8 × α}
    (h : run.entryAt? i = some entry) : some entry.2 ∈ run.slots := by
  simp only [entryAt?] at h
  split at h
  · next hc =>
    obtain rfl := Option.some.inj h
    exact List.mem_of_getElem? (Option.join_eq_some_iff.1 hc)
  · simp at h

theorem IndexedSlots.mem_of_find? {table : IndexedSlots α} {byte : UInt8} {child : α}
    (h : table.find? byte = some child) : some child ∈ table.slots.toList := by
  obtain ⟨i, -, hi⟩ := Option.bind_eq_some_iff.1 h
  exact Array.mem_toList_iff.2 (Array.mem_of_getElem? (Option.join_eq_some_iff.1 hi))

theorem DirectSlots.mem_of_find? {direct : DirectSlots α} {byte : UInt8} {child : α}
    (h : direct.find? byte = some child) : some child ∈ direct.slots.toList :=
  Array.mem_toList_iff.2 (Array.mem_of_getElem? (Option.join_eq_some_iff.1 h))

theorem Probe.find?_of_search {find? : UInt8 → Option α} {bytes : List UInt8}
    {entry : UInt8 × α} (h : search find? bytes = some entry) :
    find? entry.1 = some entry.2 := by
  obtain ⟨byte, -, hb⟩ := List.exists_of_findSome?_eq_some h
  obtain ⟨child, hc, rfl⟩ := Option.map_eq_some_iff.1 hb
  exact hc

theorem Probe.find?_of_mem_entries {find? : UInt8 → Option α} {entry : UInt8 × α}
    (h : entry ∈ entries find?) : find? entry.1 = some entry.2 := by
  obtain ⟨byte, -, hb⟩ := List.mem_filterMap.1 h
  obtain ⟨child, hc, rfl⟩ := Option.map_eq_some_iff.1 hb
  exact hc

/-! ## The ends and the whole -/

theorem Layout.mem_of_first? {layout : Layout α} {entry : UInt8 × α}
    (h : layout.first? = some entry) : entry.2 ∈ layout := by
  cases layout with
  | four run => exact run.mem_of_entryAt? (Option.ite_none_right_eq_some.1 h).2
  | sixteen run => exact run.mem_of_entryAt? (Option.ite_none_right_eq_some.1 h).2
  | fortyEight table => exact table.mem_of_find? (Probe.find?_of_search h)
  | full direct => exact direct.mem_of_find? (Probe.find?_of_search h)

theorem Layout.mem_of_last? {layout : Layout α} {entry : UInt8 × α}
    (h : layout.last? = some entry) : entry.2 ∈ layout := by
  cases layout with
  | four run => exact run.mem_of_entryAt? (Option.ite_none_right_eq_some.1 h).2
  | sixteen run => exact run.mem_of_entryAt? (Option.ite_none_right_eq_some.1 h).2
  | fortyEight table => exact table.mem_of_find? (Probe.find?_of_search h)
  | full direct => exact direct.mem_of_find? (Probe.find?_of_search h)

theorem SortedSlots.mem_of_mem_entries {run : SortedSlots α} {entry : UInt8 × α}
    (h : entry ∈ run.entries) : some entry.2 ∈ run.slots := by
  obtain ⟨⟨byte, slot⟩, hz, hs⟩ := List.mem_filterMap.1 h
  obtain ⟨child, rfl, rfl⟩ := Option.map_eq_some_iff.1 hs
  exact List.mem_of_mem_take (List.of_mem_zip hz).2

theorem Layout.mem_of_mem_entries {layout : Layout α} {entry : UInt8 × α}
    (h : entry ∈ layout.entries) : entry.2 ∈ layout := by
  cases layout with
  | four run => exact run.mem_of_mem_entries h
  | sixteen run => exact run.mem_of_mem_entries h
  | fortyEight table => exact table.mem_of_find? (Probe.find?_of_mem_entries h)
  | full direct => exact direct.mem_of_find? (Probe.find?_of_mem_entries h)

/-! ## Reading from the back -/

/-- Every child that a cursor still holds satisfies a property. -/
def Cursor.All (p : α → Prop) : Cursor α → Prop
  | .columns _ slots => ∀ child, some child ∈ slots → p child
  | .window find? _ _ => ∀ byte child, find? byte = some child → p child

theorem Cursor.all_ofNode (node : Node α) : (Cursor.ofNode node).All (· ∈ node) := by
  obtain ⟨path, layout⟩ := node
  cases layout with
  | four run => exact fun child h => List.mem_of_mem_take h
  | sixteen run => exact fun child h => List.mem_of_mem_take h
  | fortyEight table => exact fun byte child h => table.mem_of_find? h
  | full direct => exact fun byte child h => direct.mem_of_find? h

theorem Cursor.All.nextBack {p : α → Prop} {cursor rest : Cursor α} {entry : UInt8 × α}
    (hp : cursor.All p) (h : cursor.nextBack = (some entry, rest)) :
    p entry.2 ∧ rest.All p := by
  match cursor with
  | .columns keys slots =>
    simp only [Cursor.nextBack] at h
    split at h
    · next byte slot _ hs =>
      obtain ⟨he, rfl⟩ := Prod.mk.inj h
      obtain ⟨child, rfl, rfl⟩ := Option.map_eq_some_iff.1 he
      exact ⟨hp child (List.mem_of_getLast? hs), fun c hc => hp c ((List.dropLast_sublist _).subset hc)⟩
    · simp at h
  | .window find? front width =>
    simp only [Cursor.nextBack] at h
    induction width with
    | zero => simp [nextBackIn] at h
    | succ width ih =>
      simp only [nextBackIn] at h
      split at h
      · next child hc =>
        obtain ⟨he, rfl⟩ := Prod.mk.inj h
        obtain rfl := Option.some.inj he
        exact ⟨hp _ child hc, hp⟩
      · exact ih hp h

theorem Cursor.All.drainBack {p : α → Prop} (cursor : Cursor α) (hp : cursor.All p) :
    ∀ entry ∈ cursor.drainBack, p entry.2 := by
  fun_induction Cursor.drainBack cursor with
  | case1 cursor entry rest h ih =>
    obtain ⟨he, hr⟩ := hp.nextBack h
    intro e hm
    rcases List.mem_cons.1 hm with rfl | hm
    · exact he
    · exact ih hr e hm
  | case2 => intro e hm; cases hm

/-! ## Nodes -/

namespace Node

theorem mem_of_first? {node : Node α} {entry : UInt8 × α} (h : node.first? = some entry) :
    entry.2 ∈ node :=
  Layout.mem_of_first? h

theorem mem_of_last? {node : Node α} {entry : UInt8 × α} (h : node.last? = some entry) :
    entry.2 ∈ node :=
  Layout.mem_of_last? h

theorem mem_of_mem_entries {node : Node α} {entry : UInt8 × α} (h : entry ∈ node.entries) :
    entry.2 ∈ node :=
  Layout.mem_of_mem_entries h

theorem mem_of_mem_descending {node : Node α} {entry : UInt8 × α} (h : entry ∈ node.descending) :
    entry.2 ∈ node :=
  Cursor.All.drainBack _ (Cursor.all_ofNode node) entry h

theorem sizeOf_lt_of_mem [SizeOf α] {node : Node α} {child : α} (h : child ∈ node) :
    sizeOf child < sizeOf node := by
  have hs := List.sizeOf_lt_of_mem (Layout.mem_def.1 (mem_def.1 h))
  obtain ⟨path, layout⟩ := node
  rcases layout with ⟨count, keys, slots⟩ | ⟨count, keys, slots⟩ | ⟨count, index, ⟨slots⟩⟩ |
    ⟨count, ⟨slots⟩⟩ <;>
  · simp only [Layout.slots, Option.some.sizeOf_spec] at hs
    simp only [mk.sizeOf_spec, Layout.four.sizeOf_spec, Layout.sixteen.sizeOf_spec,
      Layout.fortyEight.sizeOf_spec, Layout.full.sizeOf_spec, SortedSlots.mk.sizeOf_spec,
      IndexedSlots.mk.sizeOf_spec, DirectSlots.mk.sizeOf_spec, Array.mk.sizeOf_spec]
    omega

end Node

end AdaptiveRadix
