/-
Children of a node for up to forty-eight: a table says for every byte which slot its
child is in, if it has one. A slot that a removal has freed is used again before a later one.
-/
import AdaptiveRadix.Node.Probe

namespace AdaptiveRadix

variable {α : Type}

structure IndexedSlots (α : Type) where
  count : Nat
  index : Vector (Option (Fin 48)) 256
  slots : Array (Option α)

namespace IndexedSlots

/-- The slot of a byte's child. -/
def slotOf? (table : IndexedSlots α) (byte : UInt8) : Option (Fin 48) :=
  table.index[byte.toFin]

/-- The first slot that holds no child. -/
def freeSlot? (table : IndexedSlots α) : Option (Fin 48) :=
  (table.slots.findIdx? Option.isNone).bind fun i =>
    if h : i < 48 then some ⟨i, h⟩ else none

/-- The index of bytes, which are to be no more than there are slots, whose children lie in the slots
in the order given. -/
def indexOf (bytes : List UInt8) : Vector (Option (Fin 48)) 256 :=
  bytes.zipIdx.foldl
    (fun index (byte, i) => if h : i < 48 then index.set byte.toFin (some ⟨i, h⟩) else index)
    (Vector.replicate 256 none)

/-- The table in which the entries, which are to be no more than there are slots, lie in the slots in
the order given. -/
def ofEntries (entries : List (UInt8 × α)) : IndexedSlots α where
  count := entries.length
  index := indexOf (entries.map Prod.fst)
  slots := (entries.map (some ∘ Prod.snd) ++ List.replicate (48 - entries.length) none).toArray

/-! ## Children by byte -/

def find? (table : IndexedSlots α) (byte : UInt8) : Option α :=
  (table.slotOf? byte).bind fun i => table.slots[i.val]?.join

/-- Puts a child under a byte, in the place of the one that is there if there is one. There is no
answer when the byte is new and no slot is free. -/
def insert? (table : IndexedSlots α) (byte : UInt8) (child : α) : Option (IndexedSlots α) :=
  match table.slotOf? byte with
  | some i => some { table with slots := table.slots.setIfInBounds i (some child) }
  | none => table.freeSlot?.map fun i => {
      count := table.count + 1
      index := table.index.set byte.toFin (some i)
      slots := table.slots.setIfInBounds i (some child) }

/-- Puts another child in the place of the one under a byte. -/
def replace (table : IndexedSlots α) (byte : UInt8) (child : α) : IndexedSlots α :=
  match table.slotOf? byte with
  | some i => { table with slots := table.slots.setIfInBounds i (some child) }
  | none => table

def remove (table : IndexedSlots α) (byte : UInt8) : Option α × IndexedSlots α :=
  match table.slotOf? byte with
  | none => (none, table)
  | some i =>
    (table.slots[i.val]?.join, {
      count := table.count - 1
      index := table.index.set byte.toFin none
      slots := table.slots.setIfInBounds i none })

end IndexedSlots

end AdaptiveRadix
