/-
Checking a tree against its own rules and against the loader: the number of children each
kind of node may have, the order of its layout, the bytes that lead to each leaf, and the
order of the keys. The check reports every issue it finds, node by node from the top.
-/
import AdaptiveRadix.Tree.Basic

namespace AdaptiveRadix

inductive Issue where
  | childCount (kind : Kind) (depth count : Nat)
  | occupied (kind : Kind) (depth slots count : Nat)
  | unsorted (kind : Kind) (depth : Nat) (keys : List UInt8)
  | pastEnd (kind : Kind) (depth : Nat)
  | emptySlot (depth : Nat) (byte : UInt8)
  | sharedSlot (depth slot : Nat)
  | unindexed (depth children : Nat)
  | shortKey (value : UInt64) (length depth : Nat)
  | strayLeaf (value : UInt64) (position : Nat)
  | leafCount (leaves length : Nat)
  | outOfOrder (value : UInt64)
deriving DecidableEq, Repr

def Issue.message : Issue → String
  | .childCount kind depth count => s!"{kind.name} at depth {depth} has {count} children"
  | .occupied kind depth slots count =>
    s!"{kind.name} at depth {depth} has {slots} occupied slots but num_children={count}"
  | .unsorted kind depth keys =>
    let list := ", ".intercalate (keys.map fun key => toString key.toNat)
    s!"{kind.name} at depth {depth} has unsorted keys [{list}]"
  | .pastEnd kind depth => s!"{kind.name} at depth {depth} has children past num_children"
  | .emptySlot depth byte => s!"Node48 at depth {depth} maps {byte} to an empty slot"
  | .sharedSlot depth slot => s!"Node48 at depth {depth} shares slot {slot}"
  | .unindexed depth children => s!"Node48 at depth {depth} has {children} unindexed children"
  | .shortKey value length depth => s!"leaf {value} has a {length}-byte key at depth {depth}"
  | .strayLeaf value position => s!"leaf {value} disagrees with its path at byte {position}"
  | .leafCount leaves length => s!"tree holds {leaves} leaves but len() is {length}"
  | .outOfOrder value => s!"key of payload {value} is out of order"

/-- The least number of children a node of a kind is left with. -/
def Kind.fewest (kind : Kind) : Nat :=
  match kind.shrinkAt? with
  | some n => n + 1
  | none => 2

/-! ## One node -/

section Layout

variable {α : Type}

def SortedSlots.issues (run : SortedSlots α) (kind : Kind) (depth : Nat) : List Issue :=
  (if run.bytes.Pairwise (· < ·) then [] else [.unsorted kind depth run.bytes]) ++
    if (run.slots.drop run.count).all Option.isNone then [] else [.pastEnd kind depth]

/-- The issues of the table's entries from some byte on; the slots of earlier bytes are given. -/
def IndexedSlots.entryIssues (table : IndexedSlots α) (depth : Nat) :
    List UInt8 → List (Fin 48) → List Issue
  | [], _ => []
  | byte :: bytes, used =>
    match table.slotOf? byte with
    | none => table.entryIssues depth bytes used
    | some slot =>
      (if (table.find? byte).isNone then [.emptySlot depth byte] else []) ++
        (if slot ∈ used then [.sharedSlot depth slot] else []) ++
        table.entryIssues depth bytes (slot :: used)

def IndexedSlots.issues (table : IndexedSlots α) (depth : Nat) : List Issue :=
  let used := Probe.allBytes.filterMap table.slotOf?
  let unindexed := table.slots.toList.zipIdx.countP fun (slot, i) =>
    slot.isSome && !used.any (·.val == i)
  table.entryIssues depth Probe.allBytes [] ++
    if unindexed = 0 then [] else [.unindexed depth unindexed]

def Layout.issues (layout : Layout α) (depth : Nat) : List Issue :=
  match layout with
  | .four run => run.issues .four depth
  | .sixteen run => run.issues .sixteen depth
  | .fortyEight table => table.issues depth
  | .full _ => []

def Node.issues (node : Node α) (depth : Nat) : List Issue :=
  (if node.kind.fewest ≤ node.count ∧ node.count ≤ node.kind.capacity then []
    else [.childCount node.kind depth node.count]) ++
  (if node.entries.length = node.count then []
    else [.occupied node.kind depth node.entries.length node.count]) ++
  node.layout.issues depth

end Layout

/-! ## The whole tree -/

/-- The places at which a node's stored bytes stand in the keys below it. -/
def Path.positions (path : Path) (depth : Nat) : List (Nat × UInt8) :=
  path.inline.zipIdx.map fun (byte, i) => (depth + i, byte)

/-- The issues of a leaf at a depth, whose key is to have the given bytes at the given places. -/
def leafIssues (load : Loader) (value : UInt64) (depth : Nat) (above : List (Nat × UInt8)) :
    List Issue :=
  (if (load value).length < depth then [.shortKey value (load value).length depth] else []) ++
    match above.find? fun (position, byte) => (load value)[position]? ≠ some byte with
    | some (position, _) => [.strayLeaf value position]
    | none => []

/-- The issues of a tree at a depth, whose keys are to have the given bytes at the given places. -/
def Tree.issuesAt (load : Loader) (tree : Tree) : Nat → List (Nat × UInt8) → List Issue :=
  tree.fold (leafIssues load) fun node below depth above =>
    node.issues depth ++ below.flatMap fun (byte, issues) =>
      issues (depth + node.path.length + 1)
        (above ++ node.path.positions depth ++ [(depth + node.path.length, byte)])

/-- The payloads whose keys are not greater than the key before them. -/
def orderIssues (load : Loader) : List UInt64 → List Issue
  | value :: next :: values =>
    (if load value < load next then [] else [.outOfOrder next]) ++
      orderIssues load (next :: values)
  | _ => []

end AdaptiveRadix
