/-
The compressed path of an inner node: the bytes that all keys below it share after the
bytes above it. A path keeps its length and its first nine bytes only; who needs the
others reads them in the key of a leaf below the node.
-/
import AdaptiveRadix.Key
import AdaptiveRadix.Text.Utf8
import AdaptiveRadix.Text.Quoted

namespace AdaptiveRadix

/-- How many bytes of a path are stored. -/
abbrev Path.capacity : Nat := 9

/-- A compressed path. Stored bytes past its end are zero, so that equal paths have equal fields. -/
structure Path where
  size : UInt32
  stored : Vector UInt8 Path.capacity
deriving DecidableEq

namespace Path

/-- A path of `length` bytes that begins with `bytes`. Only the size wraps when the length does not
fit in it; how many bytes are stored is decided by the length itself. -/
def ofLength (bytes : List UInt8) (length : Nat) : Path where
  size := UInt32.ofNat length
  stored := Vector.ofFn fun i => (bytes.take length)[i.val]?.getD 0

/-- The path of exactly the given bytes. -/
def ofBytes (bytes : List UInt8) : Path :=
  ofLength bytes bytes.length

def length (path : Path) : Nat :=
  path.size.toNat

def isEmpty (path : Path) : Bool :=
  path.size == 0

/-- The bytes of the path that are stored: all of them, or the first nine. -/
def inline (path : Path) : List UInt8 :=
  path.stored.toList.take path.length

/-- Whether some bytes of the path are not stored. -/
def isTruncated (path : Path) : Bool :=
  capacity < path.length

/-- The path through a node, the branch under a byte, and the node below it. The bytes of the upper
path that are not stored leave no room for a byte of the lower one, so what is stored of
the two suffices. -/
def join (upper : Path) (byte : UInt8) (lower : Path) : Path :=
  ofLength (upper.inline ++ byte :: lower.inline) (upper.length + 1 + lower.length)

/-- The stored bytes as a quoted text, and the length where that is not all. -/
def text (path : Path) : String :=
  Text.quote (Text.Utf8.decode path.inline) ++
    if path.isTruncated then s!"..({path.length})" else ""

end Path

end AdaptiveRadix
