/-
Children of a small node: key bytes in ascending order, and the children in a second
column beside them. Only the first `count` places of the two columns are in use; a byte
left behind past them means nothing.
-/
namespace AdaptiveRadix

variable {α : Type}

structure SortedSlots (α : Type) where
  count : Nat
  keys : List UInt8
  slots : List (Option α)

namespace SortedSlots

/-- Writes `x` at place `i` of a column, after moving the entries from `i` up to `n`, exclusive, one
place towards the end. The entry at `n` is lost. -/
def shiftIn {β : Type} (i n : Nat) (x : β) (column : List β) : List β :=
  column.take i ++ x :: (column.drop i).take (n - i) ++ column.drop (n + 1)

/-- Moves the entries after place `i` up to `n`, exclusive, one place towards the front, and writes
`x` at the last place of them. The entry at `i` is lost. -/
def shiftOut {β : Type} (i n : Nat) (x : β) (column : List β) : List β :=
  column.take i ++ (column.drop (i + 1)).take (n - (i + 1)) ++ x :: column.drop n

def capacity (run : SortedSlots α) : Nat :=
  run.keys.length

/-- The key bytes in use. -/
def bytes (run : SortedSlots α) : List UInt8 :=
  run.keys.take run.count

/-- The place of a byte among those in use, or the place where it would go. -/
def rank (run : SortedSlots α) (byte : UInt8) : Nat :=
  run.bytes.findIdx (byte ≤ ·)

/-- The place of a byte that is in use. -/
def position? (run : SortedSlots α) (byte : UInt8) : Option Nat :=
  if run.bytes[run.rank byte]? = some byte then some (run.rank byte) else none

/-- The byte and the child at a place. -/
def entryAt? (run : SortedSlots α) (i : Nat) : Option (UInt8 × α) :=
  match run.keys[i]?, run.slots[i]?.join with
  | some byte, some child => some (byte, child)
  | _, _ => none

/-- The columns with the given entries, which are to be in ascending order and no more than there is
room for. -/
def ofEntries (capacity : Nat) (entries : List (UInt8 × α)) : SortedSlots α where
  count := entries.length
  keys := entries.map Prod.fst ++ List.replicate (capacity - entries.length) 0
  slots := entries.map (some ∘ Prod.snd) ++ List.replicate (capacity - entries.length) none

/-! ## Children by byte -/

def find? (run : SortedSlots α) (byte : UInt8) : Option α :=
  (run.position? byte).bind fun i => run.slots[i]?.join

/-- Puts a child under a byte, in the place of the one that is there if there is one. There is no
answer when the byte is new and no place is free. -/
def insert? (run : SortedSlots α) (byte : UInt8) (child : α) : Option (SortedSlots α) :=
  match run.position? byte with
  | some i => some { run with slots := run.slots.set i (some child) }
  | none =>
    if run.count = run.capacity then none
    else some {
      count := run.count + 1
      keys := shiftIn (run.rank byte) run.count byte run.keys
      slots := shiftIn (run.rank byte) run.count (some child) run.slots }

/-- Puts another child in the place of the one under a byte. -/
def replace (run : SortedSlots α) (byte : UInt8) (child : α) : SortedSlots α :=
  match run.position? byte with
  | some i => { run with slots := run.slots.set i (some child) }
  | none => run

def remove (run : SortedSlots α) (byte : UInt8) : Option α × SortedSlots α :=
  match run.position? byte with
  | none => (none, run)
  | some i =>
    (run.slots[i]?.join, {
      count := run.count - 1
      keys := shiftOut i run.count (run.keys.getD (run.count - 1) 0) run.keys
      slots := shiftOut i run.count none run.slots })

/-! ## Children in order -/

/-- The entries in ascending order of their bytes. -/
def entries (run : SortedSlots α) : List (UInt8 × α) :=
  (run.bytes.zip (run.slots.take run.count)).filterMap fun (byte, slot) => slot.map (byte, ·)

def first? (run : SortedSlots α) : Option (UInt8 × α) :=
  if 0 < run.count then run.entryAt? 0 else none

def last? (run : SortedSlots α) : Option (UInt8 × α) :=
  if 0 < run.count then run.entryAt? (run.count - 1) else none

/-- The first child after a byte. -/
def after? (run : SortedSlots α) (byte : UInt8) : Option (UInt8 × α) :=
  (run.bytes.findIdx? (byte < ·)).bind run.entryAt?

/-- The last child before a byte. -/
def before? (run : SortedSlots α) (byte : UInt8) : Option (UInt8 × α) :=
  (run.bytes.reverse.findIdx? (· < byte)).bind fun i => run.entryAt? (run.bytes.length - 1 - i)

end SortedSlots

end AdaptiveRadix
