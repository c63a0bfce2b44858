/-
Children found by asking for every byte in turn. The two larger kinds of node keep no
order; their first, last, next and previous child are the first hit of such a search.
-/
namespace AdaptiveRadix.Probe

variable {α : Type}

/-- Every byte, in ascending order. -/
def allBytes : List UInt8 :=
  (List.range 256).map UInt8.ofNat

/-- The first of the given bytes that has a child, and the child. -/
def search (find? : UInt8 → Option α) (bytes : List UInt8) : Option (UInt8 × α) :=
  bytes.findSome? fun byte => (find? byte).map (byte, ·)

def entries (find? : UInt8 → Option α) : List (UInt8 × α) :=
  allBytes.filterMap fun byte => (find? byte).map (byte, ·)

def first? (find? : UInt8 → Option α) : Option (UInt8 × α) :=
  search find? allBytes

def last? (find? : UInt8 → Option α) : Option (UInt8 × α) :=
  search find? allBytes.reverse

/-- The first child after a byte. -/
def after? (find? : UInt8 → Option α) (byte : UInt8) : Option (UInt8 × α) :=
  search find? (allBytes.drop (byte.toNat + 1))

/-- The last child before a byte. -/
def before? (find? : UInt8 → Option α) (byte : UInt8) : Option (UInt8 × α) :=
  search find? (allBytes.take byte.toNat).reverse

end AdaptiveRadix.Probe
