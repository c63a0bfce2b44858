/-
Reading the children of a node from both ends. A cursor holds what has not been read
yet, and reading takes the first or the last of it; the two ends never overlap.
-/
import AdaptiveRadix.Node.Basic

namespace AdaptiveRadix

variable {α : Type}

/-- What remains to be read of a node's children. -/
inductive Cursor (α : Type) where
  /-- The rest of two columns. -/
  | columns (keys : List UInt8) (slots : List (Option α))
  /-- The children under the `width` bytes that begin at `front`. -/
  | window (find? : UInt8 → Option α) (front width : Nat)

namespace Cursor

/-- The cursor at a node none of whose children has been read. -/
def ofNode (node : Node α) : Cursor α :=
  match node.layout with
  | .four run => .columns run.bytes (run.slots.take run.count)
  | .sixteen run => .columns run.bytes (run.slots.take run.count)
  | .fortyEight table => .window table.find? 0 256
  | .full direct => .window direct.find? 0 256

/-- An upper bound on how many children are left. -/
def size : Cursor α → Nat
  | .columns keys _ => keys.length
  | .window _ _ width => width

/-- Passes over bytes without a child at the front of a window. -/
def nextIn (find? : UInt8 → Option α) (front : Nat) : Nat → Option (UInt8 × α) × Cursor α
  | 0 => (none, .window find? front 0)
  | width + 1 =>
    match find? (UInt8.ofNat front) with
    | some child => (some (UInt8.ofNat front, child), .window find? (front + 1) width)
    | none => nextIn find? (front + 1) width

/-- Passes over bytes without a child at the back of a window. -/
def nextBackIn (find? : UInt8 → Option α) (front : Nat) : Nat → Option (UInt8 × α) × Cursor α
  | 0 => (none, .window find? front 0)
  | width + 1 =>
    match find? (UInt8.ofNat (front + width)) with
    | some child => (some (UInt8.ofNat (front + width), child), .window find? front width)
    | none => nextBackIn find? front width

/-- The first of what remains, and the rest. -/
def next : Cursor α → Option (UInt8 × α) × Cursor α
  | .columns (byte :: keys) (slot :: slots) => (slot.map (byte, ·), .columns keys slots)
  | .columns keys slots => (none, .columns keys slots)
  | .window find? front width => nextIn find? front width

/-- The last of what remains, and the rest. -/
def nextBack : Cursor α → Option (UInt8 × α) × Cursor α
  | .columns keys slots =>
    match keys.getLast?, slots.getLast? with
    | some byte, some slot => (slot.map (byte, ·), .columns keys.dropLast slots.dropLast)
    | _, _ => (none, .columns keys slots)
  | .window find? front width => nextBackIn find? front width

theorem size_nextBackIn {find? : UInt8 → Option α} {front width : Nat} {entry : UInt8 × α}
    {rest : Cursor α} (h : nextBackIn find? front width = (some entry, rest)) :
    rest.size < width := by
  induction width with
  | zero => simp [nextBackIn] at h
  | succ width ih =>
    simp only [nextBackIn] at h
    split at h
    · obtain ⟨-, rfl⟩ := Prod.mk.inj h
      exact Nat.lt_succ_self width
    · exact Nat.lt_succ_of_lt (ih h)

theorem size_nextBack {cursor rest : Cursor α} {entry : UInt8 × α}
    (h : cursor.nextBack = (some entry, rest)) : rest.size < cursor.size := by
  match cursor with
  | .columns keys slots =>
    simp only [nextBack] at h
    split at h
    · next hk _ =>
      obtain ⟨-, rfl⟩ := Prod.mk.inj h
      have := List.length_pos_iff.2 (List.ne_nil_of_mem (List.mem_of_getLast? hk))
      simp only [size, List.length_dropLast]
      omega
    · simp at h
  | .window find? front width => exact size_nextBackIn h

/-- Reads from the back until nothing is left. -/
def drainBack (cursor : Cursor α) : List (UInt8 × α) :=
  match _h : cursor.nextBack with
  | (some entry, rest) => entry :: drainBack rest
  | (none, _) => []
termination_by cursor.size
decreasing_by exact size_nextBack _h

end Cursor

/-- The children with their bytes, read from the back. -/
def Node.descending (node : Node α) : List (UInt8 × α) :=
  (Cursor.ofNode node).drainBack

end AdaptiveRadix
