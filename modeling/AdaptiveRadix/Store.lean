/-
Strings by id. They lie one after another in a single buffer, in the order of their ids,
and stay there: retiring an id only hides its string, so an id never comes to mean
another string.
-/
import AdaptiveRadix.Key

namespace AdaptiveRadix

structure Store where
  firstId : UInt64
  bytes : Array UInt8
  /-- Where each string begins, and at the end where the next one will. -/
  offsets : Array Nat
  /-- Which of the assigned ids are not retired. -/
  live : Array Bool
  liveCount : Nat

namespace Store

def empty (firstId : UInt64) : Store :=
  ⟨firstId, #[], #[0], #[], 0⟩

/-- The number of ids ever assigned. -/
def assigned (store : Store) : Nat :=
  store.live.size

/-- The number of ids that are not retired. -/
def length (store : Store) : Nat :=
  store.liveCount

def isEmpty (store : Store) : Bool :=
  store.liveCount == 0

/-- The number of bytes in all strings, those of retired ids included. -/
def keyBytes (store : Store) : Nat :=
  store.bytes.size

/-- The id that the next string will get, unless all ids have been assigned. -/
def nextId? (store : Store) : Option UInt64 :=
  if store.firstId.toNat + store.assigned < UInt64.size then
    some (store.firstId + UInt64.ofNat store.assigned)
  else none

/-- Assigns the next id to a string. There is to be one left. -/
def push (store : Store) (s : List UInt8) : UInt64 × Store :=
  (store.firstId + UInt64.ofNat store.assigned, {
    firstId := store.firstId
    bytes := store.bytes ++ s
    offsets := store.offsets.push (store.bytes.size + s.length)
    live := store.live.push true
    liveCount := store.liveCount + 1 })

/-- Takes back the string that came in last, and its id. -/
def pop (store : Store) : Store :=
  let offsets := store.offsets.pop
  { store with
    bytes := store.bytes.take (offsets.back?.getD 0)
    offsets
    live := store.live.pop
    liveCount :=
      if store.live.back? = some true then store.liveCount - 1 else store.liveCount }

/-- The place of an assigned id among all of them. -/
def slot? (store : Store) (id : UInt64) : Option Nat :=
  if store.firstId ≤ id ∧ (id - store.firstId).toNat < store.assigned then
    some (id - store.firstId).toNat
  else none

/-- The string in a slot. -/
def span (store : Store) (slot : Nat) : List UInt8 :=
  (store.bytes.extract (store.offsets.getD slot 0) (store.offsets.getD (slot + 1) 0)).toList

/-- The string of an id that is not retired. -/
def get? (store : Store) (id : UInt64) : Option (List UInt8) :=
  (store.slot? id).bind fun slot =>
    if store.live.getD slot false then some (store.span slot) else none

/-- Hides the string of an id. The answer tells whether there was one to hide. -/
def retire (store : Store) (id : UInt64) : Bool × Store :=
  match store.slot? id with
  | none => (false, store)
  | some slot =>
    if store.live.getD slot false then
      (true, {
        store with
        live := store.live.setIfInBounds slot false
        liveCount := store.liveCount - 1 })
    else (false, store)

/-- The key of an id: its string, retired or not, and the terminator. -/
def load (store : Store) (id : UInt64) : Key :=
  match store.slot? id with
  | some slot => store.span slot ++ [Key.terminator]
  | none => []

end Store

end AdaptiveRadix
