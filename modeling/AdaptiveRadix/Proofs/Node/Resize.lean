/-
Layouts of neighbouring kinds. Whichever way the children are moved, they are found under the same
bytes afterwards. Every way but one makes the layout that the entries alone would make; columns
that are copied whole also bring what was left behind in them.
-/
import AdaptiveRadix.Node.Resize
import AdaptiveRadix.Proofs.Node.Layout

namespace AdaptiveRadix

variable {α : Type}

namespace SortedSlots

variable {run : SortedSlots α} {capacity : Nat} {l : List (UInt8 × α)}

theorem Holds.widen (h : run.Holds 4 l) : run.widen.Holds 16 l := by
  obtain ⟨rest, hk, hl⟩ := h.keys_eq
  refine ⟨h.ascending, h.count_eq, ⟨rest ++ List.replicate 12 0, ?_, ?_⟩, ?_⟩
  · rw [SortedSlots.widen, hk, List.append_assoc]
  · rw [List.length_append, List.length_replicate]
    omega
  · have hfree : 16 - l.length = 4 - l.length + 12 := by omega
    rw [SortedSlots.widen, h.slots_eq, hfree, List.append_assoc, List.replicate_append_replicate]

theorem Holds.narrow?_eq (h : run.Holds capacity l) :
    run.narrow? = if l.length ≤ 4 then some (ofEntries 4 l) else none := by
  rw [narrow?, h.bytes_eq, h.take_slots, h.count_eq]
  rfl

theorem Holds.index_eq (h : run.Holds capacity l) : run.index = .ofEntries l := by
  rw [index, h.bytes_eq, h.take_slots, h.count_eq]
  rfl

end SortedSlots

namespace IndexedSlots

variable {table : IndexedSlots α}

/-- No slot has been emptied before its byte comes, for no other byte has it. -/
theorem Valid.drain_eq (h : table.Valid) {bytes : List UInt8} (hbytes : bytes.Nodup)
    {slots : Array (Option α)}
    (hslots : ∀ byte ∈ bytes, ∀ i, table.slotOf? byte = some i →
      slots[i.val]?.join = table.childAt? i) :
    table.drain slots bytes =
      bytes.filterMap fun byte => (table.find? byte).map fun child => (byte, some child) := by
  induction bytes generalizing slots with
  | nil => rfl
  | cons byte bytes ih =>
    obtain ⟨hnot, hbytes⟩ := List.nodup_cons.1 hbytes
    rw [drain]
    cases hslot : table.slotOf? byte with
    | none =>
      have hfind : table.find? byte = none := h.find?_eq_none_iff.2 hslot
      rw [List.filterMap_cons_none (by rw [hfind]; rfl)]
      exact ih hbytes fun b hb => hslots b (List.mem_cons_of_mem _ hb)
    | some i =>
      obtain ⟨child, hchild⟩ := Option.isSome_iff_exists.1 (h.taken byte i hslot)
      have hfind : table.find? byte = some child := by
        rw [find?_eq_bind, hslot]
        exact hchild
      have hrest : ∀ b ∈ bytes, ∀ j, table.slotOf? b = some j →
          (slots.setIfInBounds i none)[j.val]?.join = table.childAt? j := by
        intro b hb j hj
        have hne : i.val ≠ j.val := fun he =>
          hnot (h.injective byte b i hslot (Fin.ext he ▸ hj) ▸ hb)
        rw [Array.getElem?_setIfInBounds_ne hne]
        exact hslots b (List.mem_cons_of_mem _ hb) j hj
      rw [List.filterMap_cons_some (by rw [hfind]; rfl)]
      dsimp only
      rw [ih hbytes hrest, hslots byte List.mem_cons_self i hslot, hchild]

theorem Valid.drained_eq (h : table.Valid) :
    table.drained = (Probe.entries table.find?).map fun entry => (entry.1, some entry.2) := by
  have hbytes : Probe.allBytes.Nodup := Probe.pairwise_allBytes.imp fun hlt => UInt8.ne_of_lt hlt
  rw [drained, h.drain_eq hbytes fun _ _ _ _ => rfl, Probe.entries, List.map_filterMap]
  refine List.filterMap_congr fun byte _ => ?_
  rw [Option.map_map]
  rfl

theorem Valid.spread_eq (h : table.Valid) :
    table.spread = .ofEntries (Probe.entries table.find?) := by
  rw [spread, h.drained_eq, List.foldl_map, h.count_eq]
  rfl

theorem Valid.sort?_eq (h : table.Valid) :
    table.sort? = if (Probe.entries table.find?).length ≤ 16
      then some (.ofEntries 16 (Probe.entries table.find?)) else none := by
  rw [sort?, h.drained_eq]
  simp only [List.length_map, List.map_map]
  rfl

end IndexedSlots

theorem Kind.capacity_lt {kind larger : Kind} (h : kind.larger? = some larger) :
    kind.capacity < larger.capacity := by
  cases kind <;> cases h <;> decide

namespace Layout

variable {layout : Layout α} {kind : Kind}

/-- A larger kind has room for the children, and they are found there as before. -/
theorem Valid.exists_grown? (h : layout.Valid) (hk : layout.kind.larger? = some kind) :
    ∃ larger, layout.grown? = some larger ∧ larger.Valid ∧ larger.kind = kind ∧
      larger.find? = layout.find? := by
  have hentries := h.ofEntries_entries (h.count_le.trans (Kind.capacity_lt hk).le)
  cases layout with
  | four run =>
    cases hk
    have hholds : run.Holds 4 run.entries := SortedSlots.Valid.holds h
    refine ⟨.sixteen run.widen, rfl, hholds.widen.valid, rfl, funext fun byte => ?_⟩
    refine Option.ext fun child => ?_
    exact hholds.widen.find?_eq_some_iff.trans hholds.find?_eq_some_iff.symm
  | sixteen run =>
    cases hk
    have hholds : run.Holds 16 run.entries := SortedSlots.Valid.holds h
    refine ⟨.ofEntries .fortyEight run.entries, ?_, hentries⟩
    rw [grown?, hholds.index_eq]
    rfl
  | fortyEight table =>
    cases hk
    refine ⟨.ofEntries .full (Probe.entries table.find?), ?_, hentries⟩
    rw [grown?, IndexedSlots.Valid.spread_eq h]
    rfl
  | full direct => cases hk

/-- Children that fit a smaller kind make the layout that their entries would make. -/
theorem Valid.shrunk?_eq (h : layout.Valid) (hk : layout.kind.smaller? = some kind) :
    layout.shrunk? =
      if layout.count ≤ kind.capacity then some (.ofEntries kind layout.entries) else none := by
  rw [h.count_eq]
  cases layout with
  | four run => cases hk
  | sixteen run =>
    cases hk
    have hholds : run.Holds 16 run.entries := SortedSlots.Valid.holds h
    rw [shrunk?, hholds.narrow?_eq, apply_ite (Option.map Layout.four)]
    rfl
  | fortyEight table =>
    cases hk
    rw [shrunk?, IndexedSlots.Valid.sort?_eq h, apply_ite (Option.map Layout.sixteen)]
    rfl
  | full direct =>
    cases hk
    rw [shrunk?, DirectSlots.index?, apply_ite (Option.map Layout.fortyEight)]
    rfl

end Layout

end AdaptiveRadix
