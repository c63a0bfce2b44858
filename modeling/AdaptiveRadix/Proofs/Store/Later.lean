/-
What becomes of a store. Strings come in, each while an id is left, and ids are retired; nothing
else happens to it. Through all this its length stays the number of ids that it finds a string for.
-/
import AdaptiveRadix.Proofs.Store

namespace AdaptiveRadix.Store

/-- What a store can become by new strings, while there are ids left, and by retired ids. -/
inductive Later (store : Store) : Store → Prop
  | refl : Later store store
  | push {later : Store} (s : List UInt8) (h : Later store later)
      (room : later.firstId.toNat + later.assigned < UInt64.size) : Later store (later.push s).2
  | retire {later : Store} (id : UInt64) (h : Later store later) : Later store (later.retire id).2

/-- The length is the number of the ids that a string is found for. -/
def Counts (store : Store) : Prop :=
  ∀ ids : List UInt64, ids.Nodup → (∀ id, id ∈ ids ↔ store.get? id ≠ none) →
    store.length = ids.length

variable {store later : Store} {id : UInt64}

theorem counts_empty (firstId : UInt64) : (empty firstId).Counts := by
  intro ids _ hmem
  have hnil : ids = [] := List.eq_nil_iff_forall_not_mem.2 fun id hid =>
    (hmem id).1 hid (by rw [get?, slot?_empty, Option.bind_none])
  rw [hnil]
  rfl

/-- An id that is about to be assigned has no string yet. -/
theorem get?_next (hroom : store.firstId.toNat + store.assigned < UInt64.size) (s : List UInt8) :
    store.get? (store.push s).1 = none := by
  have hslot : store.slot? (store.push s).1 = none := by
    refine Option.eq_none_iff_forall_ne_some.2 fun slot hs => ?_
    obtain ⟨-, rfl, hlt⟩ := slot?_eq_some_iff.1 hs
    rw [toNat_push hroom] at hlt
    omega
  rw [get?, hslot, Option.bind_none]

theorem Counts.push (h : store.Counts) (hvalid : store.Valid)
    (hroom : store.firstId.toNat + store.assigned < UInt64.size) (s : List UInt8) :
    (store.push s).2.Counts := by
  intro ids hnodup hmem
  have hget := get?_push hvalid hroom s
  have hnew : (store.push s).1 ∈ ids :=
    (hmem _).2 (by rw [hget, Function.update_self]; exact Option.some_ne_none s)
  -- Without the new id these are the ids from before.
  have hbefore : store.length = (ids.erase (store.push s).1).length := by
    refine h _ (hnodup.erase _) fun id => ?_
    rw [hnodup.mem_erase_iff, hmem, hget]
    by_cases hid : id = (store.push s).1
    · simp [hid, get?_next hroom s]
    · simp [hid]
  have hpos := List.length_pos_of_mem hnew
  rw [List.length_erase_of_mem hnew] at hbefore
  show store.length + 1 = ids.length
  omega

/-- An id that no string is found for is not retired, whatever the reason. -/
theorem retire_of_eq_none (h : store.get? id = none) : store.retire id = (false, store) := by
  rw [get?] at h
  rw [retire]
  split
  · rfl
  · next slot hslot =>
    rw [hslot, Option.bind_some, ite_eq_right_iff] at h
    rw [if_neg fun hlive => Option.some_ne_none _ (h hlive)]

theorem fst_retire (store : Store) (id : UInt64) :
    (store.retire id).1 = (store.get? id).isSome := by
  cases hg : store.get? id with
  | none => rw [retire_of_eq_none hg, Option.isSome_none]
  | some s =>
    obtain ⟨slot, hslot, hlive⟩ := Option.bind_eq_some_iff.1 hg
    rw [retire, hslot, Option.isSome_some]
    simp only [(Option.ite_none_right_eq_some.1 hlive).1, if_true]

theorem length_retire (store : Store) (id : UInt64) :
    (store.retire id).2.length = if store.get? id = none then store.length else store.length - 1 := by
  rw [retire, get?]
  cases store.slot? id with
  | none => rfl
  | some slot =>
    by_cases hlive : store.live.getD slot false
    · simp only [Option.bind_some, hlive, if_true, reduceCtorEq, if_false]
      rfl
    · simp only [Option.bind_some, hlive, Bool.false_eq_true, if_false, if_true]

theorem Counts.retire (h : store.Counts) (id : UInt64) : (store.retire id).2.Counts := by
  intro ids hnodup hmem
  rw [get?_retire] at hmem
  rw [length_retire]
  split
  · next hnone =>
    refine h ids hnodup fun other => ?_
    rw [hmem, ← hnone, Function.update_eq_self]
  · next hsome =>
    have hnot : id ∉ ids := fun hid => (hmem id).1 hid (Function.update_self ..)
    have hbefore : store.length = (id :: ids).length := by
      refine h _ (List.nodup_cons.2 ⟨hnot, hnodup⟩) fun other => ?_
      rw [List.mem_cons, hmem]
      by_cases hother : other = id
      · simp [hother, hsome]
      · simp [hother]
    rw [hbefore, List.length_cons, Nat.add_sub_cancel]

theorem Later.valid (h : store.Later later) (hvalid : store.Valid) : later.Valid := by
  induction h with
  | refl => exact hvalid
  | push s _ _ ih => exact ih.push s
  | retire id _ ih => exact ih.retire id

theorem Later.counts (h : store.Later later) (hvalid : store.Valid) (hcounts : store.Counts) :
    later.Counts := by
  induction h with
  | refl => exact hcounts
  | push s h room ih => exact ih.push (h.valid hvalid) room s
  | retire id _ ih => exact ih.retire id

end AdaptiveRadix.Store
