/-
Adding strings to a dictionary, one at a time, many at a time, or in the place of another.
A new string gets the next id; one that is present keeps the id it has.
-/
import AdaptiveRadix.Dictionary.Remove

namespace AdaptiveRadix.Dictionary

/-- The key of a string that is to be added. A string without one is reported. -/
def encode (dict : Dictionary) (s : List UInt8) : Attempt Key :=
  match Key.encode s with
  | .ok key => .unchanged dict (.ok key)
  | .error reason => ⟨dict, .error (.key (.key reason)), [.rejected s.length reason]⟩

/-- Puts an id under a key of the index by string. -/
def indexString (dict : Dictionary) (key : Key) (id : UInt64) : Attempt Unit :=
  let done := dict.byString.insert dict.store.load key id
  ⟨{ dict with byString := done.state }, (done.answer.mapError .key).map fun _ => (),
    done.events.map .index⟩

/-- Puts an id into the index by id. -/
def indexId (dict : Dictionary) (id : UInt64) : Attempt Unit :=
  let done := dict.byId.insert idKey (idKey id) id
  ⟨{ dict with byId := done.state }, (done.answer.mapError .key).map fun _ => (),
    done.events.map .index⟩

/-- Adds a string that is not present, under its key. When the index by string refuses the key, the
store gives the string back. -/
def insertNew (dict : Dictionary) (s : List UInt8) (key : Key) : Attempt UInt64 :=
  match dict.store.nextId? with
  | none => .unchanged dict (.error .idsExhausted)
  | some _ =>
    let (id, store) := dict.store.push s
    let indexed := { dict with store }.indexString key id
    match indexed.answer with
    | .error reason =>
      ⟨{ indexed.state with store := indexed.state.store.pop }, .error reason, indexed.events⟩
    | .ok () => (indexed.andThen fun dict _ => dict.indexId id).map fun answer =>
        answer.map fun _ => id

/-- Adds a string and answers its id. -/
def insert (dict : Dictionary) (s : List UInt8) : Attempt Added :=
  (dict.encode s).andThen fun dict key =>
    match dict.idOf? key with
    | some id => .unchanged dict (.ok (.known id))
    | none => (dict.insertNew s key).map fun answer => answer.map .fresh

/-! ## Many strings -/

/-- Adds strings in turn up to the first one that is refused. -/
def insertEach (dict : Dictionary) : List (List UInt8) → Attempt (List Added)
  | [] => .unchanged dict (.ok [])
  | s :: strings => (dict.insert s).andThen fun dict added =>
      (insertEach dict strings).map fun answer => answer.map (added :: ·)

/-- Adds strings in turn and answers their ids. The strings before one that is refused stay added. -/
def bulkInsert (dict : Dictionary) (strings : List (List UInt8)) : Attempt (List UInt64) :=
  (dict.insertEach strings).andThen fun dict added =>
    ⟨dict, .ok (added.map (·.id)), [.inserted added.length (added.countP (·.isFresh))]⟩

/-- The keys of strings that are to be in strictly ascending order, from a position on. -/
def ascendingKeys (dict : Dictionary) : Nat → Option Key → List (List UInt8) → Attempt (List Key)
  | _, _, [] => .unchanged dict (.ok [])
  | position, previous, s :: strings => (dict.encode s).andThen fun dict key =>
      if previous.any (key ≤ ·) then .unchanged dict (.error (.unsorted position))
      else (ascendingKeys dict (position + 1) (some key) strings).map fun answer =>
        answer.map (key :: ·)

/-- Adds strings that are not present, each under its key. -/
def insertNewEach (dict : Dictionary) : List (List UInt8 × Key) → Attempt Unit
  | [] => .unchanged dict (.ok ())
  | (s, key) :: strings => (dict.insertNew s key).andThen fun dict _ => insertNewEach dict strings

/-- Fills an empty dictionary with strings in strictly ascending order, so that ids follow the order
of the strings, and answers how many there are. Nothing is added before all of them are
found in order and enough ids are left. -/
def bulkLoad (dict : Dictionary) (strings : List (List UInt8)) : Attempt Nat :=
  if !dict.isEmpty then .unchanged dict (.error .notEmpty)
  else (dict.ascendingKeys 0 none strings).andThen fun dict keys =>
    if strings.isEmpty then .unchanged dict (.ok 0)
    else match dict.store.nextId? with
      | none => .unchanged dict (.error .idsExhausted)
      | some first =>
        if first.toNat + (strings.length - 1) < UInt64.size then
          (dict.insertNewEach (strings.zip keys)).andThen fun dict _ =>
            ⟨dict, .ok strings.length,
              [.loaded strings.length first (first + UInt64.ofNat (strings.length - 1))]⟩
        else .unchanged dict (.error .idsExhausted)

/-! ## One string for another -/

/-- Replaces the string of an id by another, which gets an id of its own or keeps the one it has. An
id that has the string already keeps it. -/
def update (dict : Dictionary) (id : UInt64) (s : List UInt8) : Attempt Added :=
  (dict.encode s).andThen fun dict key =>
    match dict.lookupString? id with
    | none => .unchanged dict (.error (.unknownId id))
    | some current =>
      if current = s then .unchanged dict (.ok (.known id))
      else match dict.idOf? key with
        | some other => (dict.removeId id).map fun _ => .ok (.known other)
        | none =>
          if dict.store.nextId?.isNone then .unchanged dict (.error .idsExhausted)
          else ((dict.removeId id).map .ok).andThen fun dict _ =>
            (dict.insertNew s key).map fun answer => answer.map .fresh

end AdaptiveRadix.Dictionary
