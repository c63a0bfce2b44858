/-
Children of a node for any number of them: one slot for every byte, and beside the slots
the number of those that are taken.
-/
import AdaptiveRadix.Node.Probe

namespace AdaptiveRadix

variable {α : Type}

structure DirectSlots (α : Type) where
  count : Nat
  slots : Array (Option α)

namespace DirectSlots

def find? (direct : DirectSlots α) (byte : UInt8) : Option α :=
  direct.slots[byte.toNat]?.join

def ofEntries (entries : List (UInt8 × α)) : DirectSlots α where
  count := entries.length
  slots := entries.foldl (fun slots (byte, child) => slots.setIfInBounds byte.toNat (some child))
    (Array.replicate 256 none)

/-- Puts a child under a byte, in the place of the one that is there if there is one. -/
def insert (direct : DirectSlots α) (byte : UInt8) (child : α) : DirectSlots α where
  count := if (direct.find? byte).isNone then direct.count + 1 else direct.count
  slots := direct.slots.setIfInBounds byte.toNat (some child)

/-- Puts another child in the place of the one under a byte. -/
def replace (direct : DirectSlots α) (byte : UInt8) (child : α) : DirectSlots α :=
  match direct.find? byte with
  | some _ => { direct with slots := direct.slots.setIfInBounds byte.toNat (some child) }
  | none => direct

def remove (direct : DirectSlots α) (byte : UInt8) : Option α × DirectSlots α :=
  match direct.find? byte with
  | none => (none, direct)
  | some child =>
    (some child, {
      count := direct.count - 1
      slots := direct.slots.setIfInBounds byte.toNat none })

end DirectSlots

end AdaptiveRadix
