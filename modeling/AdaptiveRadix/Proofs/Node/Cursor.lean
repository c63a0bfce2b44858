/-
What a cursor has still to read, as a list. Reading from the front takes the first of the list and
reading from the back the last, so reading a node to the end from the back gives its entries in
descending order.
-/
import AdaptiveRadix.Proofs.Node.Layout

namespace AdaptiveRadix.Cursor

variable {α : Type}

/-- The entries to come, from the front. -/
def toList : Cursor α → List (UInt8 × α)
  | .columns keys slots => (keys.zip slots).filterMap fun (byte, slot) => slot.map (byte, ·)
  | .window find? front width =>
    ((List.range' front width).map UInt8.ofNat).filterMap fun byte => (find? byte).map (byte, ·)

/-- Columns that are read hold a child beside every key. -/
def Full : Cursor α → Prop
  | .columns keys slots => keys.length = slots.length ∧ ∀ slot ∈ slots, slot.isSome
  | .window .. => True

theorem nextIn_spec (find? : UInt8 → Option α) (front width : Nat) :
    (nextIn find? front width).1 = (window find? front width).toList.head? ∧
      (nextIn find? front width).2.toList = (window find? front width).toList.tail ∧
      (nextIn find? front width).2.Full := by
  induction width generalizing front with
  | zero => exact ⟨rfl, rfl, trivial⟩
  | succ width ih =>
    have hcons : (window find? front (width + 1)).toList =
        ((find? (UInt8.ofNat front)).map (UInt8.ofNat front, ·)).toList ++
          (window find? (front + 1) width).toList := by
      simp only [toList, List.range'_succ, List.map_cons, List.filterMap_cons]
      cases find? (UInt8.ofNat front) <;> rfl
    rw [nextIn, hcons]
    cases hf : find? (UInt8.ofNat front) with
    | some child => simp [Full]
    | none => simpa using ih (front + 1)

theorem nextBackIn_spec (find? : UInt8 → Option α) (front width : Nat) :
    (nextBackIn find? front width).1 = (window find? front width).toList.getLast? ∧
      (nextBackIn find? front width).2.toList = (window find? front width).toList.dropLast ∧
      (nextBackIn find? front width).2.Full := by
  induction width with
  | zero => exact ⟨rfl, rfl, trivial⟩
  | succ width ih =>
    have hconcat : (window find? front (width + 1)).toList = (window find? front width).toList ++
        ((find? (UInt8.ofNat (front + width))).map (UInt8.ofNat (front + width), ·)).toList := by
      simp only [toList, List.range'_1_concat, List.map_append, List.map_cons, List.map_nil,
        List.filterMap_append, List.filterMap_cons, List.filterMap_nil]
      cases find? (UInt8.ofNat (front + width)) <;> rfl
    rw [nextBackIn, hconcat]
    cases hf : find? (UInt8.ofNat (front + width)) with
    | some child => simp [Full]
    | none => simpa using ih

theorem Full.next {cursor : Cursor α} (h : cursor.Full) :
    cursor.next.1 = cursor.toList.head? ∧
      cursor.next.2.toList = cursor.toList.tail ∧ cursor.next.2.Full := by
  match cursor with
  | .window find? front width => exact nextIn_spec find? front width
  | .columns [] slots => exact ⟨rfl, rfl, h⟩
  | .columns (byte :: keys) [] => cases h.1
  | .columns (byte :: keys) (slot :: slots) =>
    obtain ⟨hlen, hsome⟩ := h
    obtain ⟨hslot, hslots⟩ := List.forall_mem_cons.1 hsome
    obtain ⟨child, rfl⟩ := Option.isSome_iff_exists.1 hslot
    exact ⟨rfl, rfl, Nat.succ.inj hlen, hslots⟩

theorem Full.nextBack {cursor : Cursor α} (h : cursor.Full) :
    cursor.nextBack.1 = cursor.toList.getLast? ∧
      cursor.nextBack.2.toList = cursor.toList.dropLast ∧ cursor.nextBack.2.Full := by
  match cursor with
  | .window find? front width => exact nextBackIn_spec find? front width
  | .columns keys slots =>
    obtain ⟨hlen, hsome⟩ := h
    rcases List.eq_nil_or_concat keys with rfl | ⟨keys, byte, rfl⟩
    · obtain rfl : slots = [] := List.length_eq_zero_iff.1 hlen.symm
      exact ⟨rfl, rfl, rfl, by simp⟩
    rcases List.eq_nil_or_concat slots with rfl | ⟨slots, slot, rfl⟩
    · simp at hlen
    obtain ⟨child, rfl⟩ := Option.isSome_iff_exists.1 (hsome slot (by simp))
    have hlen' : keys.length = slots.length := by simpa using hlen
    simp only [Cursor.nextBack, toList, Full, List.concat_eq_append, List.getLast?_concat,
      List.dropLast_concat, List.zip_append hlen', List.filterMap_append]
    exact ⟨by simp, by simp, hlen', fun s hs => hsome s (by simp [hs])⟩

theorem Full.drainBack (cursor : Cursor α) (h : cursor.Full) :
    cursor.drainBack = cursor.toList.reverse := by
  fun_induction Cursor.drainBack cursor with
  | case1 cursor entry rest hn ih =>
    obtain ⟨hlast, hrest, hfull⟩ := h.nextBack
    rw [hn] at hlast hrest hfull
    have hsplit : cursor.toList.dropLast ++ [entry] = cursor.toList :=
      List.dropLast_append_getLast? entry hlast.symm
    rw [ih hfull, hrest, ← hsplit, List.dropLast_concat, List.reverse_append]
    rfl
  | case2 cursor rest hn =>
    obtain ⟨hlast, -, -⟩ := h.nextBack
    rw [hn] at hlast
    rw [List.getLast?_eq_none_iff.1 hlast.symm, List.reverse_nil]

theorem range'_eq_allBytes : (List.range' 0 256).map UInt8.ofNat = Probe.allBytes := by
  rw [Probe.allBytes, List.range_eq_range']

theorem full_ofNode {node : Node α} (h : node.layout.Valid) :
    (ofNode node).Full ∧ (ofNode node).toList = node.entries := by
  obtain ⟨path, layout⟩ := node
  cases layout with
  | four run =>
    have hl := SortedSlots.Valid.holds h
    exact ⟨⟨by rw [hl.bytes_eq, hl.take_slots]; simp, SortedSlots.Valid.taken h⟩, rfl⟩
  | sixteen run =>
    have hl := SortedSlots.Valid.holds h
    exact ⟨⟨by rw [hl.bytes_eq, hl.take_slots]; simp, SortedSlots.Valid.taken h⟩, rfl⟩
  | fortyEight table =>
    exact ⟨trivial, congrArg (List.filterMap _) range'_eq_allBytes⟩
  | full direct =>
    exact ⟨trivial, congrArg (List.filterMap _) range'_eq_allBytes⟩

end Cursor

/-- Reading a node from the back gives its entries from the greatest byte down. -/
theorem Node.descending_eq {α : Type} {node : Node α} (h : node.layout.Valid) :
    node.descending = node.entries.reverse := by
  obtain ⟨hfull, hlist⟩ := Cursor.full_ofNode h
  rw [descending, hfull.drainBack, hlist]

end AdaptiveRadix
