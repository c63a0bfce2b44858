/-
Keys are byte strings in lexicographic order. Two encodings make keys that no other
key of the same encoding extends: an integer as eight bytes, most significant first,
and a byte string followed by a terminator that may not occur inside it.
-/
namespace AdaptiveRadix

/-- The bytes a payload is indexed under, ordered lexicographically. -/
abbrev Key := List UInt8

/-- What rebuilds the key of a payload; the tree holds no keys of its own. -/
abbrev Loader := UInt64 → Key

/-- The length of a key, and the greatest length that was allowed. -/
structure Oversize where
  length : Nat
  max : Nat
deriving DecidableEq, Repr

/-- Why a key cannot be indexed. -/
inductive KeyError where
  | empty
  | tooLong (size : Oversize)
  | interiorTerminator (position : Nat)
  | notPrefixFree
deriving DecidableEq, Repr

namespace Key

/-- Closes every encoded byte string. -/
def terminator : UInt8 := 0

/-- The greatest number of bytes in a key. -/
def maxLength : Nat := 4096

/-! ## Integers -/

/-- The last `width` digits of a number in base 256, most significant first. -/
def bigEndian : Nat → Nat → Key
  | 0, _ => []
  | width + 1, n => bigEndian width (n / 256) ++ [UInt8.ofNat (n % 256)]

/-- The number whose digits in base 256 are the given bytes. -/
def number (key : Key) : Nat :=
  key.foldl (fun n b => n * 256 + b.toNat) 0

def ofUInt64 (n : UInt64) : Key :=
  bigEndian 8 n.toNat

/-- Only eight bytes are an encoded integer. -/
def toUInt64? (key : Key) : Option UInt64 :=
  if key.length = 8 then some (UInt64.ofNat (number key)) else none

/-- Writes the key of a payload that is its own key after what a buffer already holds. -/
def appendUInt64 (buffer : Key) (n : UInt64) : Key :=
  buffer ++ ofUInt64 n

/-! ## Byte strings -/

/-- The key of a byte string. A terminator inside the string is reported before its length is. -/
def encode (s : List UInt8) : Except KeyError Key :=
  match s.findIdx? (· == terminator) with
  | some position => .error (.interiorTerminator position)
  | none =>
    if maxLength < s.length + 1 then .error (.tooLong ⟨s.length + 1, maxLength⟩)
    else .ok (s ++ [terminator])

/-- Takes one terminator off the end; a key without one is no encoded byte string. -/
def decode? (key : Key) : Option (List UInt8) :=
  if key.getLast? = some terminator then some key.dropLast else none

/-! ## What the tree asks of a key -/

def check (key : Key) : Except KeyError Unit :=
  if key.isEmpty then .error .empty
  else if maxLength < key.length then .error (.tooLong ⟨key.length, maxLength⟩)
  else .ok ()

/-- The length of the longest common beginning of two byte strings. -/
def commonLength : List UInt8 → List UInt8 → Nat
  | a :: as, b :: bs => if a = b then commonLength as bs + 1 else 0
  | _, _ => 0

end Key

def KeyError.message : KeyError → String
  | .empty => "empty keys cannot be indexed"
  | .tooLong size =>
    s!"key of {size.length} bytes exceeds the maximum key length of {size.max} bytes"
  | .interiorTerminator position =>
    s!"string key contains the terminator byte at position {position}"
  | .notPrefixFree => "key is a prefix of an indexed key (or an indexed key is a prefix of it)"

end AdaptiveRadix
