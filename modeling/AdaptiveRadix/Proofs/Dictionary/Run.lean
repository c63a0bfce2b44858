/-
The dictionary as two maps. A run is any order of calls on a new dictionary, whatever its first
id and its policy; the ledger answers each of them as the dictionary does, and what the dictionary
shows afterwards is in the ledger's two maps.
-/
import AdaptiveRadix.Proofs.Dictionary.Bulk

namespace AdaptiveRadix

/-- A call that may change a dictionary. -/
inductive DictionaryCall where
  | insert (s : List UInt8)
  | bulkInsert (strings : List (List UInt8))
  | bulkLoad (strings : List (List UInt8))
  | update (id : UInt64) (s : List UInt8)
  | remove (s : List UInt8)
  | removeId (id : UInt64)
deriving DecidableEq, Repr

inductive DictionaryAnswer where
  | added (answer : Except DictionaryError Added)
  | ids (answer : Except DictionaryError (List UInt64))
  | loaded (answer : Except DictionaryError Nat)
  | removedId (answer : Option UInt64)
  | removedString (answer : Option (List UInt8))

namespace Dictionary

def call (dict : Dictionary) : DictionaryCall → Change DictionaryAnswer
  | .insert s => (dict.insert s).map .added
  | .bulkInsert strings => (dict.bulkInsert strings).map .ids
  | .bulkLoad strings => (dict.bulkLoad strings).map .loaded
  | .update id s => (dict.update id s).map .added
  | .remove s => (dict.remove s).map .removedId
  | .removeId id => (dict.removeId id).map .removedString

/-- The answers of calls made one after the other, and the dictionary after them. -/
def run (dict : Dictionary) : List DictionaryCall → List DictionaryAnswer × Dictionary
  | [] => ([], dict)
  | c :: calls =>
    let done := dict.call c
    let (answers, dict) := done.state.run calls
    (done.answer :: answers, dict)

end Dictionary

namespace Ledger

def call (ledger : Ledger) : DictionaryCall → DictionaryAnswer × Ledger
  | .insert s =>
    let (answer, ledger) := ledger.insert s
    (.added answer, ledger)
  | .bulkInsert strings =>
    let (answer, ledger) := ledger.bulkInsert strings
    (.ids answer, ledger)
  | .bulkLoad strings =>
    let (answer, ledger) := ledger.bulkLoad strings
    (.loaded answer, ledger)
  | .update id s =>
    let (answer, ledger) := ledger.update id s
    (.added answer, ledger)
  | .remove s =>
    let (answer, ledger) := ledger.remove s
    (.removedId answer, ledger)
  | .removeId id =>
    let (answer, ledger) := ledger.removeId id
    (.removedString answer, ledger)

def run (ledger : Ledger) : List DictionaryCall → List DictionaryAnswer × Ledger
  | [] => ([], ledger)
  | c :: calls =>
    let (answer, ledger) := ledger.call c
    let (answers, ledger) := ledger.run calls
    (answer :: answers, ledger)

end Ledger

namespace Dictionary

variable {dict : Dictionary} {ledger : Ledger}

theorem Keeps.call (h : dict.Keeps ledger) (c : DictionaryCall) :
    Follows (dict.call c) (ledger.call c) := by
  cases c with
  | insert s => exact (h.insert s).map DictionaryAnswer.added
  | bulkInsert strings => exact (h.bulkInsert strings).map DictionaryAnswer.ids
  | bulkLoad strings => exact (h.bulkLoad strings).map DictionaryAnswer.loaded
  | update id s => exact (h.update id s).map DictionaryAnswer.added
  | remove s => exact (h.remove s).map DictionaryAnswer.removedId
  | removeId id => exact (h.removeId id).map DictionaryAnswer.removedString

theorem Keeps.run (h : dict.Keeps ledger) (calls : List DictionaryCall) :
    (dict.run calls).1 = (ledger.run calls).1 ∧ (dict.run calls).2.Keeps (ledger.run calls).2 := by
  induction calls generalizing dict ledger with
  | nil => exact ⟨rfl, h⟩
  | cons c calls ih =>
    obtain ⟨hanswer, hkeeps⟩ := h.call c
    obtain ⟨hanswers, hrest⟩ := ih hkeeps
    exact ⟨congrArg₂ List.cons hanswer hanswers, hrest⟩

/-- Every run answers as the ledger does, and leaves a dictionary that shows the ledger. -/
theorem run_matches_ledger (config : Config) (calls : List DictionaryCall) :
    ((empty config).run calls).1 = ((Ledger.empty config.firstId).run calls).1 ∧
      ((empty config).run calls).2.Shows ((Ledger.empty config.firstId).run calls).2 := by
  obtain ⟨hanswers, hkeeps⟩ := (keeps_empty config).run calls
  exact ⟨hanswers, hkeeps.shows⟩

/-- A string comes in, goes and comes back, while another stays. -/
def returning : List DictionaryCall :=
  [.insert [97], .insert [98], .remove [97], .insert [97]]

/-- The string that comes back is new, and gets an id of its own again. -/
example :
    ((empty ⟨5, .pessimistic⟩).run returning).1 =
      [.added (.ok (.fresh 5)), .added (.ok (.fresh 6)), .removedId (some 5),
        .added (.ok (.fresh 7))] := by
  cbv

end Dictionary

end AdaptiveRadix
