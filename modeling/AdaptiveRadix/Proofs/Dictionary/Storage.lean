/-
The store of a dictionary. Whatever a call does to the two indexes, and whether it succeeds or not, to
the store it only brings new strings and retired ids: a string that an index refuses is taken back
out of it, which leaves a store that was valid as it was before, and no string comes in when no id is
left.
-/
import AdaptiveRadix.Proofs.Dictionary.Run
import AdaptiveRadix.Proofs.Store.Later

namespace AdaptiveRadix.Dictionary

variable {α β : Type} {store : Store} {dict : Dictionary}

theorem later_andThen {done : Attempt α} {f : Dictionary → α → Attempt β}
    (h : store.Later done.state.store)
    (hrest : ∀ dict answer, store.Later dict.store → store.Later (f dict answer).state.store) :
    store.Later (done.andThen f).state.store := by
  rw [Outcome.andThen]
  cases done.answer with
  | error reason => exact h
  | ok answer => exact hrest _ answer h

theorem later_encode (h : store.Later dict.store) (s : List UInt8) :
    store.Later (dict.encode s).state.store := by
  rw [encode]
  split <;> exact h

/-- When the index by string refuses the key, the store is the one from before the string. -/
theorem later_insertNew (hvalid : store.Valid) (h : store.Later dict.store) (s : List UInt8)
    (key : Key) : store.Later (dict.insertNew s key).state.store := by
  rw [insertNew]
  split
  · exact h
  next hnext =>
  have hroom : dict.store.firstId.toNat + dict.store.assigned < UInt64.size :=
    (Option.ite_none_right_eq_some.1 hnext).1
  dsimp only
  split
  · show store.Later (dict.store.push s).2.pop
    rwa [Store.pop_push (h.valid hvalid)]
  · refine later_andThen ?_ fun _ _ hlater => hlater
    exact .push s h hroom

theorem later_insert (hvalid : store.Valid) (h : store.Later dict.store) (s : List UInt8) :
    store.Later (dict.insert s).state.store := by
  refine later_andThen (later_encode h s) fun dict key h => ?_
  split
  · exact h
  · exact later_insertNew hvalid h s key

theorem later_insertEach (hvalid : store.Valid) (h : store.Later dict.store)
    (strings : List (List UInt8)) : store.Later (dict.insertEach strings).state.store := by
  induction strings generalizing dict with
  | nil => exact h
  | cons s strings ih => exact later_andThen (later_insert hvalid h s) fun _ _ h => ih h

theorem later_ascendingKeys (h : store.Later dict.store) (position : Nat) (previous : Option Key)
    (strings : List (List UInt8)) :
    store.Later (dict.ascendingKeys position previous strings).state.store := by
  induction strings generalizing dict position previous with
  | nil => exact h
  | cons s strings ih =>
    refine later_andThen (later_encode h s) fun dict key h => ?_
    split
    · exact h
    · exact ih h (position + 1) (some key)

theorem later_insertNewEach (hvalid : store.Valid) (h : store.Later dict.store)
    (strings : List (List UInt8 × Key)) : store.Later (dict.insertNewEach strings).state.store := by
  induction strings generalizing dict with
  | nil => exact h
  | cons entry strings ih =>
    exact later_andThen (later_insertNew hvalid h entry.1 entry.2) fun _ _ h => ih h

theorem later_bulkLoad (hvalid : store.Valid) (h : store.Later dict.store)
    (strings : List (List UInt8)) : store.Later (dict.bulkLoad strings).state.store := by
  rw [bulkLoad]
  split
  · exact h
  refine later_andThen (later_ascendingKeys h 0 none strings) fun dict keys h => ?_
  split
  · exact h
  split
  · exact h
  split
  · exact later_andThen (later_insertNewEach hvalid h (strings.zip keys)) fun _ _ h => h
  · exact h

theorem later_remove (h : store.Later dict.store) (s : List UInt8) :
    store.Later (dict.remove s).state.store := by
  rw [remove]
  split
  · exact h
  dsimp only
  split
  · exact h
  · exact h.retire _

theorem later_removeId (h : store.Later dict.store) (id : UInt64) :
    store.Later (dict.removeId id).state.store := by
  rw [removeId]
  split
  · exact h
  split
  · exact h
  · exact h.retire id

theorem later_update (hvalid : store.Valid) (h : store.Later dict.store) (id : UInt64)
    (s : List UInt8) : store.Later (dict.update id s).state.store := by
  refine later_andThen (later_encode h s) fun dict key h => ?_
  split
  · exact h
  split
  · exact h
  split
  · exact later_removeId h id
  split
  · exact h
  · exact later_andThen (later_removeId h id) fun _ _ h => later_insertNew hvalid h s key

theorem later_call (hvalid : store.Valid) (h : store.Later dict.store) (c : DictionaryCall) :
    store.Later (dict.call c).state.store := by
  cases c with
  | insert s => exact later_insert hvalid h s
  | bulkInsert strings => exact later_andThen (later_insertEach hvalid h strings) fun _ _ h => h
  | bulkLoad strings => exact later_bulkLoad hvalid h strings
  | update id s => exact later_update hvalid h id s
  | remove s => exact later_remove h s
  | removeId id => exact later_removeId h id

/-- In a run the store only gets new strings and retired ids. -/
theorem later_run (hvalid : store.Valid) (h : store.Later dict.store)
    (calls : List DictionaryCall) : store.Later (dict.run calls).2.store := by
  induction calls generalizing dict with
  | nil => exact h
  | cons c calls ih => exact ih (later_call hvalid h c)

end AdaptiveRadix.Dictionary
