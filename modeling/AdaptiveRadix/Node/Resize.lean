/-
Nodes that change their kind. Between two kinds next to each other the children are moved in a
way of the two kinds' own: growing takes over the count of the children, and shrinking to a kind
that has to be filled byte by byte counts them again. `add` and `drop` are the changes of a
node's children that keep its kind in step with their number.
-/
import AdaptiveRadix.Event
import AdaptiveRadix.Node.Basic

namespace AdaptiveRadix

variable {α : Type}

/-! ## From kind to kind -/

namespace SortedSlots

/-- Four places as sixteen: both columns are copied whole, bytes left behind included. -/
def widen (run : SortedSlots α) : SortedSlots α where
  count := run.count
  keys := run.keys ++ List.replicate 12 0
  slots := run.slots ++ List.replicate 12 none

/-- Sixteen places as four. There is no answer when more than four are in use. -/
def narrow? (run : SortedSlots α) : Option (SortedSlots α) :=
  if run.count ≤ 4 then some {
    count := run.count
    keys := run.bytes ++ List.replicate (4 - run.count) 0
    slots := run.slots.take run.count ++ List.replicate (4 - run.count) none }
  else none

/-- The places in use as the first slots of a table. -/
def index (run : SortedSlots α) : IndexedSlots α where
  count := run.count
  index := IndexedSlots.indexOf run.bytes
  slots := (run.slots.take run.count ++ List.replicate (48 - run.count) none).toArray

end SortedSlots

namespace IndexedSlots

/-- What is found in the slots of the given bytes, byte after byte. A slot is empty once it was
looked into. -/
def drain (table : IndexedSlots α) (slots : Array (Option α)) :
    List UInt8 → List (UInt8 × Option α)
  | [] => []
  | byte :: bytes =>
    match table.slotOf? byte with
    | none => table.drain slots bytes
    | some i => (byte, slots[i.val]?.join) :: table.drain (slots.setIfInBounds i none) bytes

/-- The bytes that have slots, in ascending order, with what is in their slots. -/
def drained (table : IndexedSlots α) : List (UInt8 × Option α) :=
  table.drain table.slots Probe.allBytes

/-- Every child in the slot of its byte. -/
def spread (table : IndexedSlots α) : DirectSlots α where
  count := table.count
  slots := table.drained.foldl (fun slots (byte, slot) => slots.setIfInBounds byte.toNat slot)
    (Array.replicate 256 none)

/-- The children in the order of their bytes. There is no answer when there are more than sixteen. -/
def sort? (table : IndexedSlots α) : Option (SortedSlots α) :=
  let found := table.drained
  if found.length ≤ 16 then some {
    count := found.length
    keys := found.map Prod.fst ++ List.replicate (16 - found.length) 0
    slots := found.map Prod.snd ++ List.replicate (16 - found.length) none }
  else none

end IndexedSlots

/-- The children in the first slots of a table, in the order of their bytes. There is no answer when
there are more than the table has slots. -/
def DirectSlots.index? (direct : DirectSlots α) : Option (IndexedSlots α) :=
  let found := Probe.entries direct.find?
  if found.length ≤ 48 then some (.ofEntries found) else none

namespace Layout

/-- The children in the layout of the next larger kind, if there is one. -/
def grown? : Layout α → Option (Layout α)
  | .four run => some (.sixteen run.widen)
  | .sixteen run => some (.fortyEight run.index)
  | .fortyEight table => some (.full table.spread)
  | .full _ => none

/-- The children in the layout of the next smaller kind, if there is one and they fit it. -/
def shrunk? : Layout α → Option (Layout α)
  | .four _ => none
  | .sixteen run => run.narrow?.map .four
  | .fortyEight table => table.sort?.map .sixteen
  | .full direct => direct.index?.map .fortyEight

end Layout

namespace Node

/-- The node as one of the next larger kind, if there is one. -/
def grow (node : Node α) : Node α × List Event :=
  match node.layout.grown? with
  | some layout => ({ node with layout }, [.grew node.kind layout.kind layout.count])
  | none => (node, [])

/-- The node as one of the next smaller kind, if there is one. There is no answer when the children do
not fit that kind. -/
def shrink? (node : Node α) : Option (Node α × List Event) :=
  match node.kind.smaller? with
  | none => some (node, [])
  | some _ => node.layout.shrunk?.map fun layout =>
      ({ node with layout }, [.shrank node.kind layout.kind layout.count])

/-- The same for a node whose children are to fit the smaller kind. -/
def shrink (node : Node α) : Node α × List Event :=
  node.shrink?.getD (node, [])

/-- Whether so few children are left that a smaller kind suits them. -/
def shouldShrink (node : Node α) : Bool :=
  node.kind.shrinkAt?.any (node.count ≤ ·)

/-- Puts a child under a byte, after growing where a new byte finds the node full. -/
def add (node : Node α) (byte : UInt8) (child : α) : Except NoRoom (Node α × List Event) :=
  if node.isFull && (node.find? byte).isNone then
    (node.grow.1.insert byte child).map (·, node.grow.2)
  else
    (node.insert byte child).map (·, [])

/-- Shrinks a node that has become too empty for its kind. -/
def fit (node : Node α) : Node α × List Event :=
  if node.shouldShrink then node.shrink else (node, [])

/-- The child under a byte, and the node without it, shrunk if that leaves it too empty. -/
def drop (node : Node α) (byte : UInt8) : Option α × Node α × List Event :=
  ((node.remove byte).1, (node.remove byte).2.fit)

end Node

end AdaptiveRadix
