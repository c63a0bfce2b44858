/-
The reference for the dictionary: a map from strings to ids, a map from ids to strings, and the
next id. What a call is to answer and to change is said here with nothing but the two maps;
neither the tree, the store nor the policy of the searches has a part in it.
-/
import Mathlib
import AdaptiveRadix.Dictionary.Insert

namespace AdaptiveRadix

structure Ledger where
  ids : Std.TreeMap (List UInt8) UInt64
  strings : Std.TreeMap UInt64 (List UInt8)
  /-- Not an id any more when all of them have been assigned. -/
  next : Nat

namespace Ledger

def empty (firstId : UInt64) : Ledger :=
  ⟨∅, ∅, firstId.toNat⟩

/-- Gives a string the next id. -/
def assign (ledger : Ledger) (s : List UInt8) : Ledger where
  ids := ledger.ids.insert s (.ofNat ledger.next)
  strings := ledger.strings.insert (.ofNat ledger.next) s
  next := ledger.next + 1

/-- Takes out a string and its id. -/
def drop (ledger : Ledger) (id : UInt64) (s : List UInt8) : Ledger :=
  { ledger with ids := ledger.ids.erase s, strings := ledger.strings.erase id }

def insert (ledger : Ledger) (s : List UInt8) : Except DictionaryError Added × Ledger :=
  match Key.encode s with
  | .error reason => (.error (.key (.key reason)), ledger)
  | .ok _ =>
    match ledger.ids[s]? with
    | some id => (.ok (.known id), ledger)
    | none =>
      if ledger.next < UInt64.size then (.ok (.fresh (.ofNat ledger.next)), ledger.assign s)
      else (.error .idsExhausted, ledger)

/-- Inserts one string after the other, up to the first that is refused. -/
def bulkInsert (ledger : Ledger) :
    List (List UInt8) → Except DictionaryError (List UInt64) × Ledger
  | [] => (.ok [], ledger)
  | s :: strings =>
    match ledger.insert s with
    | (.error reason, ledger) => (.error reason, ledger)
    | (.ok added, ledger) =>
      let (answer, ledger) := ledger.bulkInsert strings
      (answer.map (added.id :: ·), ledger)

/-- What is wrong first with strings that are to be in strictly ascending order. -/
def firstFault (position : Nat) (previous : Option (List UInt8)) :
    List (List UInt8) → Option DictionaryError
  | [] => none
  | s :: strings =>
    match Key.encode s with
    | .error reason => some (.key (.key reason))
    | .ok _ =>
      if previous.any (s ≤ ·) then some (.unsorted position)
      else firstFault (position + 1) (some s) strings

def bulkLoad (ledger : Ledger) (strings : List (List UInt8)) :
    Except DictionaryError Nat × Ledger :=
  if !ledger.ids.isEmpty then (.error .notEmpty, ledger)
  else
    match firstFault 0 none strings with
    | some reason => (.error reason, ledger)
    | none =>
      if strings = [] ∨ ledger.next + strings.length ≤ UInt64.size then
        (.ok strings.length, strings.foldl assign ledger)
      else (.error .idsExhausted, ledger)

def removeId (ledger : Ledger) (id : UInt64) : Option (List UInt8) × Ledger :=
  match ledger.strings[id]? with
  | none => (none, ledger)
  | some s => (some s, ledger.drop id s)

def remove (ledger : Ledger) (s : List UInt8) : Option UInt64 × Ledger :=
  match ledger.ids[s]? with
  | none => (none, ledger)
  | some id => (some id, (ledger.removeId id).2)

/-- Every error comes before the first change. -/
def update (ledger : Ledger) (id : UInt64) (s : List UInt8) :
    Except DictionaryError Added × Ledger :=
  match Key.encode s with
  | .error reason => (.error (.key (.key reason)), ledger)
  | .ok _ =>
    match ledger.strings[id]? with
    | none => (.error (.unknownId id), ledger)
    | some current =>
      if current = s then (.ok (.known id), ledger)
      else if ledger.ids[s]? = none ∧ UInt64.size ≤ ledger.next then
        (.error .idsExhausted, ledger)
      else (ledger.removeId id).2.insert s

/-! ## Ledgers in order -/

/-- The two maps are each other's inverse, every string has a key, and no id is yet to come. -/
structure Valid (ledger : Ledger) : Prop where
  inverse : ∀ (s : List UInt8) (id : UInt64),
    ledger.ids[s]? = some id ↔ ledger.strings[id]? = some s
  encodes : ∀ (s : List UInt8) (id : UInt64),
    ledger.ids[s]? = some id → Key.encode s = .ok (s ++ [Key.terminator])
  below : ∀ (s : List UInt8) (id : UInt64), ledger.strings[id]? = some s → id.toNat < ledger.next

variable {ledger : Ledger} {s : List UInt8} {id : UInt64}

theorem valid_empty (firstId : UInt64) : (empty firstId).Valid :=
  ⟨fun s id => by simp [empty], fun s id h => by simp [empty] at h,
    fun s id h => by simp [empty] at h⟩

/-- The next id is not in use. -/
theorem Valid.next_free (h : ledger.Valid) (hroom : ledger.next < UInt64.size) :
    ledger.strings[UInt64.ofNat ledger.next]? = none := by
  refine Option.eq_none_iff_forall_ne_some.2 fun s hs => ?_
  have := h.below s _ hs
  rw [UInt64.toNat_ofNat_of_lt' hroom] at this
  exact Nat.lt_irrefl _ this

theorem getElem?_ids_assign (ledger : Ledger) (s t : List UInt8) :
    (ledger.assign s).ids[t]? = if t = s then some (.ofNat ledger.next) else ledger.ids[t]? := by
  simp only [assign, Std.TreeMap.getElem?_insert, Std.LawfulEqCmp.compare_eq_iff_eq, @eq_comm _ s t]

theorem getElem?_strings_assign (ledger : Ledger) (s : List UInt8) (id : UInt64) :
    (ledger.assign s).strings[id]? =
      if id = .ofNat ledger.next then some s else ledger.strings[id]? := by
  simp only [assign, Std.TreeMap.getElem?_insert, Std.LawfulEqCmp.compare_eq_iff_eq,
    @eq_comm _ _ id]

theorem getElem?_ids_drop (ledger : Ledger) (id : UInt64) (s t : List UInt8) :
    (ledger.drop id s).ids[t]? = if t = s then none else ledger.ids[t]? := by
  simp only [drop, Std.TreeMap.getElem?_erase, Std.LawfulEqCmp.compare_eq_iff_eq, @eq_comm _ s t]

theorem getElem?_strings_drop (ledger : Ledger) (id other : UInt64) (s : List UInt8) :
    (ledger.drop id s).strings[other]? = if other = id then none else ledger.strings[other]? := by
  simp only [drop, Std.TreeMap.getElem?_erase, Std.LawfulEqCmp.compare_eq_iff_eq,
    @eq_comm _ id other]

/-- Without an id only the string of the id has lost it. -/
theorem getElem?_ids_removeId {id : UInt64} {s t : List UInt8} (hs : ledger.strings[id]? = some s)
    (hne : s ≠ t) : (ledger.removeId id).2.ids[t]? = ledger.ids[t]? := by
  simp only [removeId, hs, getElem?_ids_drop, if_neg hne.symm]

theorem Valid.assign (h : ledger.Valid) (hs : Key.encode s = .ok (s ++ [Key.terminator]))
    (hnew : ledger.ids[s]? = none) (hroom : ledger.next < UInt64.size) :
    (ledger.assign s).Valid := by
  have hfree := h.next_free hroom
  refine ⟨fun t id => ?_, fun t id ht => ?_, fun t id ht => ?_⟩
  · rw [getElem?_ids_assign, getElem?_strings_assign]
    have hinv := h.inverse t id
    split
    · next hts =>
      subst hts
      rw [hnew] at hinv
      split
      · next hid => exact ⟨fun _ => rfl, fun _ => congrArg some hid.symm⟩
      · next hid =>
        exact ⟨fun he => absurd (Option.some.inj he).symm hid, fun ht => nomatch hinv.2 ht⟩
    · next hts =>
      split
      · next hid =>
        subst hid
        rw [hinv, hfree]
        simp [Ne.symm hts]
      · exact hinv
  · rw [getElem?_ids_assign] at ht
    split at ht
    · next hts => exact hts ▸ hs
    · exact h.encodes t id ht
  · rw [getElem?_strings_assign] at ht
    show id.toNat < ledger.next + 1
    split at ht
    · next hid =>
      rw [hid, UInt64.toNat_ofNat_of_lt' hroom]
      exact Nat.lt_succ_self _
    · exact Nat.lt_succ_of_lt (h.below t id ht)

theorem Valid.drop (h : ledger.Valid) (hid : ledger.ids[s]? = some id) :
    (ledger.drop id s).Valid := by
  refine ⟨fun t other => ?_, fun t other ht => ?_, fun t other ht => ?_⟩
  · rw [getElem?_ids_drop, getElem?_strings_drop]
    have hinv := h.inverse t other
    split
    · next hts =>
      subst hts
      rw [hid] at hinv
      split
      · exact ⟨nofun, nofun⟩
      · next ho => exact ⟨nofun, fun hs => absurd (Option.some.inj (hinv.2 hs)).symm ho⟩
    · next hts =>
      split
      · next ho =>
        subst ho
        rw [hinv, (h.inverse s other).1 hid]
        simp [Ne.symm hts]
      · exact hinv
  · rw [getElem?_ids_drop] at ht
    split at ht
    · cases ht
    · exact h.encodes t other ht
  · rw [getElem?_strings_drop] at ht
    split at ht
    · cases ht
    · exact h.below t other ht

end Ledger

end AdaptiveRadix
