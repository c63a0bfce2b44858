/-
The four layouts under one law. A valid layout finds children as a function from bytes does,
lists what that function finds in ascending order, and counts it; insertion, replacement and
removal change the function under one byte, and a layout filled with the entries of another finds
what that one found.
-/
import AdaptiveRadix.Proofs.Node.Direct
import AdaptiveRadix.Proofs.Node.Indexed
import AdaptiveRadix.Proofs.Node.Sorted

namespace AdaptiveRadix.Layout

variable {α : Type} {layout : Layout α} {byte : UInt8} {child : α}

/-- What the layout of a kind has to keep, whatever the children are. -/
def Valid : Layout α → Prop
  | .four run => run.Valid Kind.four.capacity
  | .sixteen run => run.Valid Kind.sixteen.capacity
  | .fortyEight table => table.Valid
  | .full direct => direct.Valid

theorem Valid.mem_entries (h : layout.Valid) {entry : UInt8 × α} :
    entry ∈ layout.entries ↔ layout.find? entry.1 = some entry.2 := by
  cases layout with
  | four run => exact SortedSlots.Valid.mem_entries h
  | sixteen run => exact SortedSlots.Valid.mem_entries h
  | fortyEight table => exact Probe.mem_entries
  | full direct => exact Probe.mem_entries

theorem Valid.ascending (h : layout.Valid) : layout.entries.Pairwise (·.1 < ·.1) := by
  cases layout with
  | four run => exact (SortedSlots.Valid.holds h).ascending
  | sixteen run => exact (SortedSlots.Valid.holds h).ascending
  | fortyEight table => exact Probe.pairwise_entries _
  | full direct => exact Probe.pairwise_entries _

theorem Valid.entries_eq (h : layout.Valid) : layout.entries = Probe.entries layout.find? :=
  (Probe.entries_eq h.ascending fun _ => h.mem_entries).symm

theorem Valid.count_eq (h : layout.Valid) : layout.count = layout.entries.length := by
  cases layout with
  | four run => exact SortedSlots.Valid.count_eq h
  | sixteen run => exact SortedSlots.Valid.count_eq h
  | fortyEight table => exact IndexedSlots.Valid.count_eq h
  | full direct => exact DirectSlots.Valid.count_eq h

theorem Valid.count_le (h : layout.Valid) : layout.count ≤ layout.kind.capacity := by
  cases layout with
  | four run => exact SortedSlots.Valid.count_le h
  | sixteen run => exact SortedSlots.Valid.count_le h
  | fortyEight table => exact IndexedSlots.Valid.count_le h
  | full direct => exact h.count_eq ▸ Probe.length_entries_le _

/-- Layouts that find the same children have as many of them. -/
theorem Valid.count_congr {other : Layout α} (h : layout.Valid) (h' : other.Valid)
    (hf : layout.find? = other.find?) : layout.count = other.count := by
  rw [h.count_eq, h'.count_eq, h.entries_eq, h'.entries_eq, hf]

theorem Valid.first?_eq (h : layout.Valid) : layout.first? = layout.entries.head? := by
  cases layout with
  | four run => exact SortedSlots.Valid.first?_eq h
  | sixteen run => exact SortedSlots.Valid.first?_eq h
  | fortyEight table => exact Probe.first?_eq _
  | full direct => exact Probe.first?_eq _

theorem Valid.last?_eq (h : layout.Valid) : layout.last? = layout.entries.getLast? := by
  cases layout with
  | four run => exact SortedSlots.Valid.last?_eq h
  | sixteen run => exact SortedSlots.Valid.last?_eq h
  | fortyEight table => exact Probe.last?_eq _
  | full direct => exact Probe.last?_eq _

theorem Valid.after?_eq (h : layout.Valid) (byte : UInt8) :
    layout.after? byte = layout.entries.find? (byte < ·.1) := by
  cases layout with
  | four run => exact SortedSlots.Valid.after?_eq h byte
  | sixteen run => exact SortedSlots.Valid.after?_eq h byte
  | fortyEight table => exact Probe.after?_eq _ byte
  | full direct => exact Probe.after?_eq _ byte

theorem Valid.before?_eq (h : layout.Valid) (byte : UInt8) :
    layout.before? byte = layout.entries.reverse.find? (·.1 < byte) := by
  cases layout with
  | four run => exact SortedSlots.Valid.before?_eq h byte
  | sixteen run => exact SortedSlots.Valid.before?_eq h byte
  | fortyEight table => exact Probe.before?_eq _ byte
  | full direct => exact Probe.before?_eq _ byte

/-! ## Changes -/

/-- A layout takes a child in if it has one under the byte already, or has room. -/
theorem Valid.insert? (h : layout.Valid)
    (hroom : (layout.find? byte).isSome ∨ layout.count < layout.kind.capacity) (child : α) :
    ∃ layout', layout.insert? byte child = some layout' ∧ layout'.Valid ∧
      layout'.kind = layout.kind ∧
      layout'.find? = Function.update layout.find? byte (some child) := by
  cases layout with
  | four run =>
    obtain ⟨run', hi, hv, hf⟩ := SortedSlots.Valid.insert? h hroom child
    exact ⟨.four run', by rw [Layout.insert?, hi]; rfl, hv, rfl, hf⟩
  | sixteen run =>
    obtain ⟨run', hi, hv, hf⟩ := SortedSlots.Valid.insert? h hroom child
    exact ⟨.sixteen run', by rw [Layout.insert?, hi]; rfl, hv, rfl, hf⟩
  | fortyEight table =>
    obtain ⟨table', hi, hv, hf⟩ := IndexedSlots.Valid.insert? h hroom child
    exact ⟨.fortyEight table', by rw [Layout.insert?, hi]; rfl, hv, rfl, hf⟩
  | full direct =>
    obtain ⟨hv, hf⟩ := DirectSlots.Valid.insert h byte child
    exact ⟨.full (direct.insert byte child), rfl, hv, rfl, hf⟩

theorem Valid.replace (h : layout.Valid) (hold : (layout.find? byte).isSome) (child : α) :
    (layout.replace byte child).Valid ∧
      (layout.replace byte child).find? = Function.update layout.find? byte (some child) := by
  cases layout with
  | four run => exact SortedSlots.Valid.replace h hold child
  | sixteen run => exact SortedSlots.Valid.replace h hold child
  | fortyEight table => exact IndexedSlots.Valid.replace h hold child
  | full direct => exact DirectSlots.Valid.replace h hold child

theorem kind_replace (layout : Layout α) (byte : UInt8) (child : α) :
    (layout.replace byte child).kind = layout.kind := by
  cases layout <;> rfl

theorem replace_self (h : layout.find? byte = some child) : layout.replace byte child = layout := by
  cases layout with
  | four run => exact congrArg _ (SortedSlots.replace_self h)
  | sixteen run => exact congrArg _ (SortedSlots.replace_self h)
  | fortyEight table => exact congrArg _ (IndexedSlots.replace_self h)
  | full direct => exact congrArg _ (DirectSlots.replace_self h)

theorem Valid.remove (h : layout.Valid) (byte : UInt8) :
    (layout.remove byte).1 = layout.find? byte ∧ (layout.remove byte).2.Valid ∧
      (layout.remove byte).2.find? = Function.update layout.find? byte none := by
  cases layout with
  | four run => exact SortedSlots.Valid.remove h byte
  | sixteen run => exact SortedSlots.Valid.remove h byte
  | fortyEight table => exact IndexedSlots.Valid.remove h byte
  | full direct => exact DirectSlots.Valid.remove h byte

theorem kind_remove (layout : Layout α) (byte : UInt8) :
    (layout.remove byte).2.kind = layout.kind := by
  cases layout <;> rfl

/-! ## Layouts filled from entries -/

theorem kind_ofEntries (kind : Kind) (l : List (UInt8 × α)) : (ofEntries kind l).kind = kind := by
  cases kind <;> rfl

theorem valid_ofEntries {kind : Kind} {l : List (UInt8 × α)} (hs : l.Pairwise (·.1 < ·.1))
    (hlen : l.length ≤ kind.capacity) : (ofEntries kind l).Valid := by
  cases kind with
  | four => exact (SortedSlots.holds_ofEntries hs hlen).valid
  | sixteen => exact (SortedSlots.holds_ofEntries hs hlen).valid
  | fortyEight => exact IndexedSlots.valid_ofEntries hs hlen
  | full => exact DirectSlots.valid_ofEntries hs

theorem find?_ofEntries {kind : Kind} {l : List (UInt8 × α)} (hs : l.Pairwise (·.1 < ·.1))
    (hlen : l.length ≤ kind.capacity) :
    (ofEntries kind l).find? byte = some child ↔ (byte, child) ∈ l := by
  cases kind with
  | four => exact (SortedSlots.holds_ofEntries hs hlen).find?_eq_some_iff
  | sixteen => exact (SortedSlots.holds_ofEntries hs hlen).find?_eq_some_iff
  | fortyEight => exact IndexedSlots.find?_ofEntries hs hlen
  | full => exact DirectSlots.find?_ofEntries hs

theorem entries_ofEntries {kind : Kind} {l : List (UInt8 × α)} (hs : l.Pairwise (·.1 < ·.1))
    (hlen : l.length ≤ kind.capacity) : (ofEntries kind l).entries = l :=
  Probe.eq_of_ascending (valid_ofEntries hs hlen).ascending hs fun _ =>
    (valid_ofEntries hs hlen).mem_entries.trans (find?_ofEntries hs hlen)

/-- A layout made from the entries of another finds the same children. -/
theorem Valid.ofEntries_entries (h : layout.Valid) {kind : Kind}
    (hroom : layout.count ≤ kind.capacity) :
    (ofEntries kind layout.entries).Valid ∧ (ofEntries kind layout.entries).kind = kind ∧
      (ofEntries kind layout.entries).find? = layout.find? := by
  have hlen : layout.entries.length ≤ kind.capacity := h.count_eq ▸ hroom
  refine ⟨valid_ofEntries h.ascending hlen, kind_ofEntries .., ?_⟩
  funext b
  refine Option.ext fun c => ?_
  rw [find?_ofEntries h.ascending hlen, h.mem_entries]

end AdaptiveRadix.Layout
