/-
Inner nodes: a compressed path, and children under single bytes in one of four layouts.
Whatever the layout, a node is an ordered map from bytes to children, and `entries` is
that map as a list; nothing above this file looks at a layout but to size or check it.
-/
import AdaptiveRadix.Path
import AdaptiveRadix.Node.Kind
import AdaptiveRadix.Node.Sorted
import AdaptiveRadix.Node.Indexed
import AdaptiveRadix.Node.Direct

namespace AdaptiveRadix

variable {α : Type}

/-- How a node holds its children. -/
inductive Layout (α : Type) where
  | four (run : SortedSlots α)
  | sixteen (run : SortedSlots α)
  | fortyEight (table : IndexedSlots α)
  | full (direct : DirectSlots α)

structure Node (α : Type) where
  path : Path
  layout : Layout α

namespace Layout

def kind : Layout α → Kind
  | .four _ => .four
  | .sixteen _ => .sixteen
  | .fortyEight _ => .fortyEight
  | .full _ => .full

/-- The layout of a kind that holds the given entries, which are to be in ascending order and no more
than the kind has room for. -/
def ofEntries (kind : Kind) (entries : List (UInt8 × α)) : Layout α :=
  match kind with
  | .four => .four (.ofEntries Kind.four.capacity entries)
  | .sixteen => .sixteen (.ofEntries Kind.sixteen.capacity entries)
  | .fortyEight => .fortyEight (.ofEntries entries)
  | .full => .full (.ofEntries entries)

/-- The number of children, as the layout keeps it. -/
def count : Layout α → Nat
  | .four run => run.count
  | .sixteen run => run.count
  | .fortyEight table => table.count
  | .full direct => direct.count

def find? (layout : Layout α) (byte : UInt8) : Option α :=
  match layout with
  | .four run => run.find? byte
  | .sixteen run => run.find? byte
  | .fortyEight table => table.find? byte
  | .full direct => direct.find? byte

def insert? (layout : Layout α) (byte : UInt8) (child : α) : Option (Layout α) :=
  match layout with
  | .four run => (run.insert? byte child).map .four
  | .sixteen run => (run.insert? byte child).map .sixteen
  | .fortyEight table => (table.insert? byte child).map .fortyEight
  | .full direct => some (.full (direct.insert byte child))

def replace (layout : Layout α) (byte : UInt8) (child : α) : Layout α :=
  match layout with
  | .four run => .four (run.replace byte child)
  | .sixteen run => .sixteen (run.replace byte child)
  | .fortyEight table => .fortyEight (table.replace byte child)
  | .full direct => .full (direct.replace byte child)

def remove (layout : Layout α) (byte : UInt8) : Option α × Layout α :=
  match layout with
  | .four run => ((run.remove byte).1, .four (run.remove byte).2)
  | .sixteen run => ((run.remove byte).1, .sixteen (run.remove byte).2)
  | .fortyEight table => ((table.remove byte).1, .fortyEight (table.remove byte).2)
  | .full direct => ((direct.remove byte).1, .full (direct.remove byte).2)

def entries : Layout α → List (UInt8 × α)
  | .four run => run.entries
  | .sixteen run => run.entries
  | .fortyEight table => Probe.entries table.find?
  | .full direct => Probe.entries direct.find?

def first? : Layout α → Option (UInt8 × α)
  | .four run => run.first?
  | .sixteen run => run.first?
  | .fortyEight table => Probe.first? table.find?
  | .full direct => Probe.first? direct.find?

def last? : Layout α → Option (UInt8 × α)
  | .four run => run.last?
  | .sixteen run => run.last?
  | .fortyEight table => Probe.last? table.find?
  | .full direct => Probe.last? direct.find?

def after? (layout : Layout α) (byte : UInt8) : Option (UInt8 × α) :=
  match layout with
  | .four run => run.after? byte
  | .sixteen run => run.after? byte
  | .fortyEight table => Probe.after? table.find? byte
  | .full direct => Probe.after? direct.find? byte

def before? (layout : Layout α) (byte : UInt8) : Option (UInt8 × α) :=
  match layout with
  | .four run => run.before? byte
  | .sixteen run => run.before? byte
  | .fortyEight table => Probe.before? table.find? byte
  | .full direct => Probe.before? direct.find? byte

end Layout

namespace Node

/-- A node of the smallest kind without children. -/
def empty (path : Path) : Node α :=
  ⟨path, .ofEntries .four []⟩

def kind (node : Node α) : Kind :=
  node.layout.kind

def count (node : Node α) : Nat :=
  node.layout.count

/-- Whether the node has to grow before a child is added under a new byte. -/
def isFull (node : Node α) : Bool :=
  node.kind.capacity ≤ node.count

/-! ## Children by byte -/

def find? (node : Node α) (byte : UInt8) : Option α :=
  node.layout.find? byte

/-- Puts a child under a byte, in the place of the one that is there if there is one. A new byte needs
room in the node. -/
def insert (node : Node α) (byte : UInt8) (child : α) : Except NoRoom (Node α) :=
  match node.layout.insert? byte child with
  | some layout => .ok { node with layout }
  | none => .error ⟨node.kind⟩

/-- Puts another child in the place of the one under a byte; a byte without a child stays without. -/
def replace (node : Node α) (byte : UInt8) (child : α) : Node α :=
  { node with layout := node.layout.replace byte child }

/-- The child under a byte, and the node without it. -/
def remove (node : Node α) (byte : UInt8) : Option α × Node α :=
  ((node.layout.remove byte).1, { node with layout := (node.layout.remove byte).2 })

/-- The node with two children that leave a path under different bytes. -/
def fork (path : Path) (byte₁ : UInt8) (child₁ : α) (byte₂ : UInt8) (child₂ : α) :
    Except NoRoom (Node α) :=
  (Node.empty path).insert byte₁ child₁ >>= fun node => node.insert byte₂ child₂

/-! ## Children in order -/

/-- The children with their bytes, in ascending order of the bytes. -/
def entries (node : Node α) : List (UInt8 × α) :=
  node.layout.entries

def first? (node : Node α) : Option (UInt8 × α) :=
  node.layout.first?

def last? (node : Node α) : Option (UInt8 × α) :=
  node.layout.last?

/-- The child under the smallest byte greater than the given one. -/
def after? (node : Node α) (byte : UInt8) : Option (UInt8 × α) :=
  node.layout.after? byte

/-- The child under the greatest byte less than the given one. -/
def before? (node : Node α) (byte : UInt8) : Option (UInt8 × α) :=
  node.layout.before? byte

end Node

end AdaptiveRadix
