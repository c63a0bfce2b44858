/-
Taking strings out of a dictionary, by string or by id. The id of a removed string is
retired: both indexes lose it, the store hides its string, and it is not assigned again.
-/
import AdaptiveRadix.Dictionary.Basic

namespace AdaptiveRadix.Dictionary

/-- Takes an id out of the index by id and hides its string. -/
def retire (dict : Dictionary) (id : UInt64) : Change Unit :=
  let erased := dict.byId.erase idKey (idKey id)
  ⟨{ dict with byId := erased.state, store := (dict.store.retire id).2 }, (),
    erased.events.map .index ++ [.retired id]⟩

/-- Takes an encoded string out of the index by string. -/
def eraseKey (dict : Dictionary) (key : Key) : Change (Option UInt64) :=
  let erased := dict.byString.erase dict.store.load key
  ⟨{ dict with byString := erased.state }, erased.answer, erased.events.map .index⟩

/-- Removes a string and answers its id. -/
def remove (dict : Dictionary) (s : List UInt8) : Change (Option UInt64) :=
  match Key.encode s with
  | .error _ => .unchanged dict none
  | .ok key =>
    let erased := dict.eraseKey key
    match erased.answer with
    | none => erased
    | some id =>
      let retired := erased.state.retire id
      ⟨retired.state, some id, erased.events ++ retired.events⟩

/-- Removes the string of an id and answers it. -/
def removeId (dict : Dictionary) (id : UInt64) : Change (Option (List UInt8)) :=
  match dict.lookupString? id with
  | none => .unchanged dict none
  | some s =>
    match Key.encode s with
    | .error _ => .unchanged dict none
    | .ok key =>
      let erased := dict.eraseKey key
      let retired := erased.state.retire id
      ⟨retired.state, some s, erased.events ++ retired.events⟩

end AdaptiveRadix.Dictionary
