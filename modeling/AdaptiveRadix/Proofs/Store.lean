/-
The store of strings. A valid store has its offsets inside its buffer, the last of them at the end;
then what a new string is appended behind stays what it was, so an id never comes to mean
another string, and retiring one takes it from what is found but not from what is loaded.
-/
import Mathlib
import AdaptiveRadix.Store

namespace AdaptiveRadix.Store

variable {store : Store} {id : UInt64} {s : List UInt8} {slot : Nat}

/-- One offset for every assigned id and one for the end of the buffer, and none beyond it. -/
structure Valid (store : Store) : Prop where
  offsets_size : store.offsets.size = store.assigned + 1
  offsets_last : store.offsets[store.assigned]? = some store.bytes.size
  offsets_le : ∀ (i : Nat) (offset : Nat), store.offsets[i]? = some offset → offset ≤ store.bytes.size

theorem valid_empty (firstId : UInt64) : (empty firstId).Valid := by
  refine ⟨rfl, rfl, fun i offset h => ?_⟩
  obtain ⟨hi, rfl⟩ := Array.getElem?_eq_some_iff.1 h
  have hi : i = 0 := Nat.lt_one_iff.1 hi
  subst hi
  exact Nat.le_refl 0

/-! ## Slots and spans -/

theorem slot?_eq_some_iff :
    store.slot? id = some slot ↔
      store.firstId ≤ id ∧ slot = id.toNat - store.firstId.toNat ∧ slot < store.assigned := by
  rw [slot?, Option.ite_none_right_eq_some, Option.some.injEq]
  constructor
  · rintro ⟨⟨hle, hlt⟩, rfl⟩
    exact ⟨hle, UInt64.toNat_sub_of_le _ _ hle, hlt⟩
  · rintro ⟨hle, rfl, hlt⟩
    rw [UInt64.toNat_sub_of_le _ _ hle]
    exact ⟨⟨hle, hlt⟩, rfl⟩

theorem toNat_push (h : store.firstId.toNat + store.assigned < UInt64.size) (s : List UInt8) :
    (store.push s).1.toNat = store.firstId.toNat + store.assigned := by
  rw [push, UInt64.toNat_add, UInt64.toNat_ofNat_of_lt' (by omega), Nat.mod_eq_of_lt h]

theorem assigned_push (store : Store) (s : List UInt8) :
    (store.push s).2.assigned = store.assigned + 1 :=
  Array.size_push ..

theorem slot?_empty (firstId id : UInt64) : (empty firstId).slot? id = none :=
  Option.eq_none_iff_forall_ne_some.2 fun slot hs =>
    absurd (slot?_eq_some_iff.1 hs).2.2 (Nat.not_lt_zero slot)

theorem slot?_push_self (h : store.firstId.toNat + store.assigned < UInt64.size) (s : List UInt8) :
    (store.push s).2.slot? (store.push s).1 = some store.assigned := by
  have hid := toNat_push h s
  rw [slot?_eq_some_iff, assigned_push, hid]
  refine ⟨UInt64.le_iff_toNat_le.2 (by rw [hid]; exact Nat.le_add_right ..), ?_, Nat.lt_succ_self _⟩
  exact (Nat.add_sub_cancel_left ..).symm

theorem slot?_push_of_ne (h : store.firstId.toNat + store.assigned < UInt64.size)
    (hne : id ≠ (store.push s).1) : (store.push s).2.slot? id = store.slot? id := by
  have hid := toNat_push h s
  refine Option.ext fun slot => ?_
  rw [slot?_eq_some_iff, slot?_eq_some_iff, assigned_push]
  refine and_congr_right fun hle => and_congr_right fun hslot => ?_
  have hle := UInt64.le_iff_toNat_le.1 hle
  have hne : id.toNat ≠ store.firstId.toNat + store.assigned := fun he =>
    hne (UInt64.toNat_inj.1 (he.trans hid.symm))
  change id.toNat ≠ _ at hne
  change slot = id.toNat - store.firstId.toNat at hslot
  change store.firstId.toNat ≤ id.toNat at hle
  omega

theorem span_eq {store : Store} {i j : Nat} (hi : store.offsets[slot]? = some i)
    (hj : store.offsets[slot + 1]? = some j) :
    store.span slot = (store.bytes.toList.drop i).take (j - i) := by
  rw [span, Array.getD_eq_getD_getElem?, Array.getD_eq_getD_getElem?, hi, hj]
  simp [List.extract_eq_take_drop]

theorem offsets_push (store : Store) (s : List UInt8) (i : Nat) :
    (store.push s).2.offsets[i]? =
      if i = store.offsets.size then some (store.bytes.size + s.length) else store.offsets[i]? :=
  Array.getElem?_push

theorem toList_bytes_push (store : Store) (s : List UInt8) :
    (store.push s).2.bytes.toList = store.bytes.toList ++ s := by
  simp [push]

theorem span_push_self (h : store.Valid) (s : List UInt8) :
    (store.push s).2.span store.assigned = s := by
  have hi : (store.push s).2.offsets[store.assigned]? = some store.bytes.size := by
    rw [offsets_push, if_neg (by rw [h.offsets_size]; omega), h.offsets_last]
  have hj : (store.push s).2.offsets[store.assigned + 1]? = some (store.bytes.size + s.length) := by
    rw [offsets_push, if_pos h.offsets_size.symm]
  rw [span_eq hi hj, toList_bytes_push, ← Array.length_toList, List.drop_left,
    Nat.add_sub_cancel_left, List.take_length]

theorem span_push_of_lt (h : store.Valid) (s : List UInt8) (hslot : slot < store.assigned) :
    (store.push s).2.span slot = store.span slot := by
  have hsize := h.offsets_size
  obtain ⟨i, hi⟩ : ∃ i, store.offsets[slot]? = some i :=
    ⟨_, Array.getElem?_eq_getElem (by omega)⟩
  obtain ⟨j, hj⟩ : ∃ j, store.offsets[slot + 1]? = some j :=
    ⟨_, Array.getElem?_eq_getElem (by omega)⟩
  have hi' : (store.push s).2.offsets[slot]? = some i := by
    rw [offsets_push, if_neg (by omega), hi]
  have hj' : (store.push s).2.offsets[slot + 1]? = some j := by
    rw [offsets_push, if_neg (by omega), hj]
  have hile := h.offsets_le _ i hi
  have hjle := h.offsets_le _ j hj
  rw [← Array.length_toList] at hile hjle
  rw [span_eq hi' hj', span_eq hi hj, toList_bytes_push, List.drop_append_of_le_length hile,
    List.take_append_of_le_length (by rw [List.length_drop]; omega)]

/-! ## A new string -/

theorem keyBytes_push (store : Store) (s : List UInt8) :
    (store.push s).2.keyBytes = store.keyBytes + s.length := by
  rw [keyBytes, keyBytes, ← Array.length_toList, toList_bytes_push, List.length_append,
    Array.length_toList]

theorem Valid.push (h : store.Valid) (s : List UInt8) : (store.push s).2.Valid := by
  have hsize : (store.push s).2.bytes.size = store.bytes.size + s.length := keyBytes_push store s
  refine ⟨?_, ?_, fun i offset ho => ?_⟩
  · rw [assigned_push, ← h.offsets_size]
    exact Array.size_push ..
  · rw [assigned_push, offsets_push, if_pos h.offsets_size.symm, hsize]
  · rw [offsets_push] at ho
    split at ho
    · cases ho
      rw [hsize]
    · have := h.offsets_le i offset ho
      omega

/-- The buffer is cut off where the string began, at the end that is kept for the strings before. -/
theorem pop_push (h : store.Valid) (s : List UInt8) : (store.push s).2.pop = store := by
  have hlast : store.offsets.back? = some store.bytes.size := by
    rw [Array.back?_eq_getElem?, h.offsets_size, Nat.add_sub_cancel, h.offsets_last]
  have hbytes : (store.bytes ++ s).take store.bytes.size = store.bytes := by
    rw [← Array.toList_inj]
    simp
  simp only [pop, push, Array.pop_push, Array.back?_push, hlast, Option.getD_some, hbytes, if_true,
    Nat.add_sub_cancel]

/-- The new string is found under the new id, and every other as before. -/
theorem get?_push (h : store.Valid) (hid : store.firstId.toNat + store.assigned < UInt64.size)
    (s : List UInt8) :
    (store.push s).2.get? = Function.update store.get? (store.push s).1 (some s) := by
  funext id
  by_cases hne : id = (store.push s).1
  · subst hne
    have hlive : (store.push s).2.live.getD store.assigned false = true := by
      rw [Array.getD_eq_getD_getElem?]
      exact congrArg (·.getD false) Array.getElem?_push_size
    rw [get?, slot?_push_self hid, Option.bind_some, if_pos hlive, span_push_self h,
      Function.update_self]
  · rw [get?, slot?_push_of_ne hid hne, Function.update_of_ne hne, get?]
    cases hs : store.slot? id with
    | none => rfl
    | some slot =>
      have hlt := (slot?_eq_some_iff.1 hs).2.2
      have hlive : (store.push s).2.live.getD slot false = store.live.getD slot false := by
        rw [Array.getD_eq_getD_getElem?, Array.getD_eq_getD_getElem?]
        exact congrArg (·.getD false) (Array.getElem?_push.trans (if_neg hlt.ne))
      rw [Option.bind_some, Option.bind_some, hlive, span_push_of_lt h s hlt]

theorem load_push (h : store.Valid) (hid : store.firstId.toNat + store.assigned < UInt64.size)
    (s : List UInt8) :
    (store.push s).2.load = Function.update store.load (store.push s).1 (s ++ [Key.terminator]) := by
  funext id
  by_cases hne : id = (store.push s).1
  · subst hne
    rw [load, slot?_push_self hid, Function.update_self]
    simp only [span_push_self h]
  · rw [load, slot?_push_of_ne hid hne, Function.update_of_ne hne, load]
    cases hs : store.slot? id with
    | none => rfl
    | some slot =>
      have hlt := (slot?_eq_some_iff.1 hs).2.2
      simp only [span_push_of_lt h s hlt]

theorem load_of_get? (h : store.get? id = some s) : store.load id = s ++ [Key.terminator] := by
  rw [get?, Option.bind_eq_some_iff] at h
  obtain ⟨slot, hslot, h⟩ := h
  obtain ⟨-, hs⟩ := Option.ite_none_right_eq_some.1 h
  rw [load, hslot, ← Option.some.inj hs]

/-! ## A retired one -/

theorem slot?_inj {other : UInt64} (h : store.slot? id = some slot)
    (h' : store.slot? other = some slot) : id = other := by
  obtain ⟨hle, rfl, -⟩ := slot?_eq_some_iff.1 h
  obtain ⟨hle', heq, -⟩ := slot?_eq_some_iff.1 h'
  rw [UInt64.le_iff_toNat_le] at hle hle'
  exact UInt64.toNat_inj.1 (by omega)

/-- Retiring changes nothing but which ids are live. -/
theorem retire_eq (store : Store) (id : UInt64) :
    ∃ live liveCount, live.size = store.live.size ∧
      (store.retire id).2 = { store with live, liveCount } := by
  rw [retire]
  split
  · exact ⟨store.live, store.liveCount, rfl, rfl⟩
  split
  · exact ⟨_, _, Array.size_setIfInBounds .., rfl⟩
  · exact ⟨store.live, store.liveCount, rfl, rfl⟩

theorem firstId_retire (store : Store) (id : UInt64) :
    (store.retire id).2.firstId = store.firstId := by
  obtain ⟨_, _, -, h⟩ := retire_eq store id
  rw [h]

theorem assigned_retire (store : Store) (id : UInt64) :
    (store.retire id).2.assigned = store.assigned := by
  obtain ⟨_, _, hsize, h⟩ := retire_eq store id
  rw [h]
  exact hsize

theorem offsets_retire (store : Store) (id : UInt64) :
    (store.retire id).2.offsets = store.offsets := by
  obtain ⟨_, _, -, h⟩ := retire_eq store id
  rw [h]

theorem keyBytes_retire (store : Store) (id : UInt64) :
    (store.retire id).2.keyBytes = store.keyBytes := by
  obtain ⟨_, _, -, h⟩ := retire_eq store id
  rw [h]
  rfl

theorem Valid.retire (h : store.Valid) (id : UInt64) : (store.retire id).2.Valid := by
  have hassigned := assigned_retire store id
  obtain ⟨_, _, -, heq⟩ := retire_eq store id
  rw [heq] at hassigned ⊢
  refine ⟨?_, ?_, h.offsets_le⟩
  · rw [hassigned]
    exact h.offsets_size
  · rw [hassigned]
    exact h.offsets_last

theorem slot?_retire (store : Store) (id : UInt64) : (store.retire id).2.slot? = store.slot? := by
  funext other
  rw [slot?, slot?, firstId_retire, assigned_retire]

theorem span_retire (store : Store) (id : UInt64) : (store.retire id).2.span = store.span := by
  obtain ⟨_, _, -, h⟩ := retire_eq store id
  rw [h]
  rfl

/-- The string of a retired id can still be loaded. -/
theorem load_retire (store : Store) (id : UInt64) : (store.retire id).2.load = store.load := by
  funext other
  rw [load, load, slot?_retire, span_retire]

theorem getD_live_retire {other : UInt64} {slot : Nat} (h : store.slot? other = some slot) :
    (store.retire id).2.live.getD slot false =
      if other = id then false else store.live.getD slot false := by
  rw [retire]
  split
  · next hnone =>
    rw [if_neg]
    rintro rfl
    cases hnone.symm.trans h
  next i hi =>
  have hiff : i = slot ↔ other = id := by
    constructor
    · rintro rfl
      exact slot?_inj h hi
    · rintro rfl
      exact Option.some.inj (hi.symm.trans h)
  split
  · rw [Array.getD_eq_getD_getElem?, Array.getD_eq_getD_getElem?]
    by_cases hid : other = id
    · rw [if_pos hid, ← hiff.2 hid, Array.getElem?_setIfInBounds_self]
      split <;> rfl
    · rw [if_neg hid, Array.getElem?_setIfInBounds_ne fun he => hid (hiff.1 he)]
  · next hdead =>
    split
    · next hid =>
      rw [← hiff.2 hid]
      simpa using hdead
    · rfl

theorem get?_retire (store : Store) (id : UInt64) :
    (store.retire id).2.get? = Function.update store.get? id none := by
  funext other
  rw [get?, slot?_retire, span_retire]
  cases hs : store.slot? other with
  | none =>
    have hnone : store.get? other = none := by rw [get?, hs, Option.bind_none]
    by_cases hid : other = id
    · rw [hid, Function.update_self, Option.bind_none]
    · rw [Function.update_of_ne hid, hnone, Option.bind_none]
  | some slot =>
    rw [Option.bind_some, getD_live_retire hs]
    by_cases hid : other = id
    · rw [if_pos hid, if_neg Bool.false_ne_true, hid, Function.update_self]
    · rw [if_neg hid, Function.update_of_ne hid, get?, hs, Option.bind_some]

end AdaptiveRadix.Store
