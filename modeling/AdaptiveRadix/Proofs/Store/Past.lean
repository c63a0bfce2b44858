/-
A store and its past. Beside the store stand the strings that were pushed on it, each with the id it
was given, and the ids that were retired after they had been given out. The two lists decide all
that the store answers, although the strings lie in one buffer and only the places between them are
kept: a string lies where it came to lie, whatever comes behind it, and a retired one stays there.
-/
import AdaptiveRadix.Proofs.Store.Later

namespace AdaptiveRadix.Store

/-- A store after any order of pushes, each while an id is left, and of retirements, of any ids. One that
was never given out is not retired by being asked for. -/
inductive Past (firstId : UInt64) : Store → List (UInt64 × List UInt8) → List UInt64 → Prop
  | empty : Past firstId (empty firstId) [] []
  | push {store : Store} {pushes : List (UInt64 × List UInt8)} {retired : List UInt64}
      (s : List UInt8) (h : Past firstId store pushes retired) (room : store.nextId?.isSome) :
      Past firstId (store.push s).2 (pushes ++ [((store.push s).1, s)]) retired
  | retire {store : Store} {pushes : List (UInt64 × List UInt8)} {retired : List UInt64}
      {id : UInt64} (h : Past firstId store pushes retired) (given : id ∈ pushes.map Prod.fst) :
      Past firstId (store.retire id).2 pushes (id :: retired)
  | miss {store : Store} {pushes : List (UInt64 × List UInt8)} {retired : List UInt64}
      {id : UInt64} (h : Past firstId store pushes retired) (unknown : id ∉ pushes.map Prod.fst) :
      Past firstId (store.retire id).2 pushes retired

variable {firstId id : UInt64} {store : Store} {pushes : List (UInt64 × List UInt8)}
  {retired : List UInt64} {s : List UInt8}

theorem isSome_nextId?_iff :
    store.nextId?.isSome ↔ store.firstId.toNat + store.assigned < UInt64.size := by
  rw [nextId?]
  split
  · next hroom => exact iff_of_true rfl hroom
  · next hfull => exact iff_of_false Bool.false_ne_true hfull

namespace Past

theorem later (h : Past firstId store pushes retired) : (Store.empty firstId).Later store := by
  induction h with
  | empty => exact .refl
  | push s _ room ih => exact .push s ih (isSome_nextId?_iff.1 room)
  | retire _ _ ih => exact .retire _ ih
  | miss _ _ ih => exact .retire _ ih

theorem valid (h : Past firstId store pushes retired) : store.Valid :=
  h.later.valid (valid_empty firstId)

/-! ## The ids -/

theorem firstId_eq (h : Past firstId store pushes retired) : store.firstId = firstId := by
  induction h with
  | empty => rfl
  | push s _ _ ih => exact ih
  | retire _ _ ih => exact (firstId_retire ..).trans ih
  | miss _ _ ih => exact (firstId_retire ..).trans ih

theorem assigned_eq (h : Past firstId store pushes retired) : store.assigned = pushes.length := by
  induction h with
  | empty => rfl
  | push s _ _ ih => rw [assigned_push, ih, List.length_append, List.length_singleton]
  | retire _ _ ih => exact (assigned_retire ..).trans ih
  | miss _ _ ih => exact (assigned_retire ..).trans ih

/-- The ids are given out one after another, from the first on. -/
theorem ids (h : Past firstId store pushes retired) :
    (pushes.map Prod.fst).map UInt64.toNat = List.range' firstId.toNat pushes.length := by
  induction h with
  | empty => rfl
  | push s h room ih =>
    rw [List.map_append, List.map_append, ih, List.length_append, List.length_singleton,
      List.range'_concat, Nat.one_mul, List.map_singleton, List.map_singleton,
      toNat_push (isSome_nextId?_iff.1 room), h.firstId_eq, h.assigned_eq]
  | retire _ _ ih => exact ih
  | miss _ _ ih => exact ih

theorem nodup (h : Past firstId store pushes retired) : (pushes.map Prod.fst).Nodup := by
  refine List.Nodup.of_map UInt64.toNat ?_
  rw [h.ids]
  exact List.nodup_range'

/-- The next id was not given out before. -/
theorem fresh (h : Past firstId store pushes retired) (room : store.nextId?.isSome)
    (s : List UInt8) : (store.push s).1 ∉ pushes.map Prod.fst := by
  intro hmem
  have hrange := List.mem_map_of_mem hmem (f := UInt64.toNat)
  rw [h.ids, List.mem_range'_1, toNat_push (isSome_nextId?_iff.1 room), h.firstId_eq,
    h.assigned_eq] at hrange
  omega

theorem given (h : Past firstId store pushes retired) : ∀ id ∈ retired, id ∈ pushes.map Prod.fst := by
  induction h with
  | empty => exact nofun
  | push s _ _ ih =>
    intro id hid
    rw [List.map_append]
    exact List.mem_append_left _ (ih id hid)
  | retire _ hgiven ih => exact List.forall_mem_cons.2 ⟨hgiven, ih⟩
  | miss _ _ ih => exact ih

/-! ## What is found and loaded -/

theorem find (h : Past firstId store pushes retired) :
    ∀ id s, store.get? id = some s ↔ (id, s) ∈ pushes ∧ id ∉ retired := by
  induction h with
  | empty =>
    intro id s
    rw [get?, slot?_empty, Option.bind_none]
    simp
  | @push store pushes retired new h room ih =>
    intro id s
    rw [get?_push h.valid (isSome_nextId?_iff.1 room), List.mem_append, List.mem_singleton,
      Prod.mk.injEq]
    by_cases hid : id = (store.push new).1
    · have hfresh := h.fresh room new
      have hnot : (id, s) ∉ pushes := fun hm =>
        hfresh (hid ▸ List.mem_map_of_mem hm (f := Prod.fst))
      have hlive : id ∉ retired := fun hm => hfresh (hid ▸ h.given id hm)
      have hself : Function.update store.get? (store.push new).1 (some new) id = some new := by
        rw [hid, Function.update_self]
      rw [hself, Option.some.injEq]
      exact ⟨fun he => ⟨.inr ⟨hid, he.symm⟩, hlive⟩, fun hm => (hm.1.resolve_left hnot).2.symm⟩
    · rw [Function.update_of_ne hid, ih]
      simp [hid]
  | @retire store pushes retired gone _ _ ih =>
    intro id s
    rw [get?_retire]
    by_cases hid : id = gone
    · simp [hid]
    · rw [Function.update_of_ne hid, ih]
      simp [hid]
  | @miss store pushes retired gone _ unknown ih =>
    have hnone : store.get? gone = none := Option.eq_none_iff_forall_ne_some.2 fun s hs =>
      unknown (List.mem_map_of_mem ((ih gone s).1 hs).1 (f := Prod.fst))
    rw [get?_retire, ← hnone, Function.update_eq_self]
    exact ih

theorem load_eq (h : Past firstId store pushes retired) :
    (∀ id s, (id, s) ∈ pushes → store.load id = s ++ [Key.terminator]) ∧
      ∀ id, id ∉ pushes.map Prod.fst → store.load id = [] := by
  induction h with
  | empty =>
    refine ⟨nofun, fun id _ => ?_⟩
    rw [load, slot?_empty]
  | @push store pushes retired new h room ih =>
    rw [load_push h.valid (isSome_nextId?_iff.1 room)]
    constructor
    · intro id s hm
      rcases List.mem_append.1 hm with hm | hm
      · have hid : id ≠ (store.push new).1 := fun he =>
          h.fresh room new (he ▸ List.mem_map_of_mem hm (f := Prod.fst))
        rw [Function.update_of_ne hid, ih.1 id s hm]
      · cases List.mem_singleton.1 hm
        rw [Function.update_self]
    · intro id hm
      rw [List.map_append, List.mem_append, not_or] at hm
      rw [Function.update_of_ne fun he => hm.2 (by simp [he]), ih.2 id hm.1]
  | retire _ _ ih =>
    rw [load_retire]
    exact ih
  | miss _ _ ih =>
    rw [load_retire]
    exact ih

/-! ## The buffer -/

theorem offsets_ascending (h : Past firstId store pushes retired) :
    store.offsets.toList.Pairwise (· ≤ ·) ∧ store.offsets[0]? = some 0 := by
  induction h with
  | empty => exact ⟨List.pairwise_singleton .., rfl⟩
  | @push store pushes retired s h _ ih =>
    have hle : ∀ offset ∈ store.offsets.toList, offset ≤ store.bytes.size + s.length := by
      intro offset hm
      obtain ⟨i, hi⟩ := List.getElem?_of_mem hm
      exact (h.valid.offsets_le i offset (by rwa [← Array.getElem?_toList])).trans
        (Nat.le_add_right ..)
    have hsize := h.valid.offsets_size
    constructor
    · rw [show (store.push s).2.offsets = store.offsets.push _ from rfl, Array.toList_push]
      refine List.pairwise_append.2 ⟨ih.1, List.pairwise_singleton .., fun offset hm last hl => ?_⟩
      rw [List.mem_singleton.1 hl]
      exact hle offset hm
    · rw [offsets_push, if_neg (by omega), ih.2]
  | retire _ _ ih => rwa [offsets_retire]
  | miss _ _ ih => rwa [offsets_retire]

theorem keyBytes_eq (h : Past firstId store pushes retired) :
    store.keyBytes = (pushes.map fun push => push.2.length).sum := by
  induction h with
  | empty => rfl
  | push s _ _ ih =>
    rw [keyBytes_push, ih, List.map_append, List.sum_append, List.map_singleton, List.sum_singleton]
  | retire _ _ ih => rw [keyBytes_retire, ih]
  | miss _ _ ih => rw [keyBytes_retire, ih]

/-- Every id that is not retired is counted once. -/
theorem length_eq (h : Past firstId store pushes retired) :
    store.length = ((pushes.map Prod.fst).filter (· ∉ retired)).length := by
  refine h.later.counts (valid_empty firstId) (counts_empty firstId) _ (h.nodup.filter _) fun id => ?_
  rw [List.mem_filter, List.mem_map, decide_eq_true_iff, Option.ne_none_iff_exists']
  constructor
  · rintro ⟨⟨⟨_, s⟩, hm, rfl⟩, hlive⟩
    exact ⟨s, (h.find _ s).2 ⟨hm, hlive⟩⟩
  · rintro ⟨s, hs⟩
    obtain ⟨hm, hlive⟩ := (h.find id s).1 hs
    exact ⟨⟨(id, s), hm, rfl⟩, hlive⟩

/-- Whatever becomes of the store later, the strings that it has are a part of its past. -/
theorem exists_later {later : Store} (h : Past firstId store pushes retired)
    (hlater : store.Later later) :
    ∃ more retired', Past firstId later (pushes ++ more) retired' := by
  induction hlater with
  | refl => exact ⟨[], retired, by rwa [List.append_nil]⟩
  | push s _ room ih =>
    obtain ⟨more, retired', hpast⟩ := ih
    have hpush := hpast.push s (isSome_nextId?_iff.2 room)
    rw [List.append_assoc] at hpush
    exact ⟨_, _, hpush⟩
  | retire id _ ih =>
    obtain ⟨more, retired', hpast⟩ := ih
    by_cases hgiven : id ∈ (pushes ++ more).map Prod.fst
    · exact ⟨_, _, hpast.retire hgiven⟩
    · exact ⟨_, _, hpast.miss hgiven⟩

end Past

/-- What a store shows of the strings pushed on it and the ids retired. -/
structure Recalls (firstId : UInt64) (store : Store) (pushes : List (UInt64 × List UInt8))
    (retired : List UInt64) : Prop where
  offsets_ascending : store.offsets.toList.Pairwise (· ≤ ·)
  offsets_first : store.offsets[0]? = some 0
  offsets_last : store.offsets.back? = some store.bytes.size
  offsets_size : store.offsets.size = pushes.length + 1
  ids : (pushes.map Prod.fst).map UInt64.toNat = List.range' firstId.toNat pushes.length
  find : ∀ id s, store.get? id = some s ↔ (id, s) ∈ pushes ∧ id ∉ retired
  load : ∀ id s, (id, s) ∈ pushes → store.load id = s ++ [Key.terminator]
  load_unknown : ∀ id, id ∉ pushes.map Prod.fst → store.load id = []
  retires : ∀ id, (store.retire id).1 = true ↔ id ∈ pushes.map Prod.fst ∧ id ∉ retired
  refuses : ∀ id, (store.retire id).1 = false → (store.retire id).2 = store
  length : store.length = ((pushes.map Prod.fst).filter (· ∉ retired)).length
  assigned : store.assigned = pushes.length
  keyBytes : store.keyBytes = (pushes.map fun push => push.2.length).sum

/-- After any past the store finds the strings whose ids are not retired, loads those of all ids, and
counts both; and whatever happens to it later, no id comes to mean another string. -/
theorem Past.recalls (h : Past firstId store pushes retired) :
    store.Recalls firstId pushes retired ∧
    ∀ later, store.Later later → ∀ id s, (id, s) ∈ pushes →
      later.load id = s ++ [Key.terminator] ∧
        ∀ other, later.get? id = some other → other = s := by
  have hassigned := h.assigned_eq
  have hsize := h.valid.offsets_size
  constructor
  · refine ⟨h.offsets_ascending.1, h.offsets_ascending.2, ?_, by rw [hsize, hassigned], h.ids, h.find,
      h.load_eq.1, h.load_eq.2, fun id => ?_, fun id hf => ?_, h.length_eq, hassigned, h.keyBytes_eq⟩
    · rw [Array.back?_eq_getElem?, hsize, Nat.add_sub_cancel]
      exact h.valid.offsets_last
    · rw [fst_retire, Option.isSome_iff_exists]
      constructor
      · rintro ⟨s, hs⟩
        obtain ⟨hm, hlive⟩ := (h.find id s).1 hs
        exact ⟨List.mem_map_of_mem hm (f := Prod.fst), hlive⟩
      · rintro ⟨hm, hlive⟩
        obtain ⟨⟨_, s⟩, hs, rfl⟩ := List.mem_map.1 hm
        exact ⟨s, (h.find _ s).2 ⟨hs, hlive⟩⟩
    · rw [fst_retire, Option.isSome_eq_false_iff, Option.isNone_iff_eq_none] at hf
      rw [retire_of_eq_none hf]
  · intro later hlater id s hm
    obtain ⟨more, retired', hpast⟩ := h.exists_later hlater
    have hload := hpast.load_eq.1 id s (List.mem_append_left more hm)
    refine ⟨hload, fun other hother => ?_⟩
    exact List.append_cancel_right ((load_of_get? hother).symm.trans hload)

/-! ## The last ids there are -/

/-- The third id from the end of all. -/
def thirdLast : UInt64 := 18446744073709551613

/-- Three strings, one of them empty and one with a terminator inside. The first is retired before the
last comes in, and an id below the first is asked for in vain. -/
def filled : Store :=
  (((((empty thirdLast).push [97]).2.push []).2.retire thirdLast).2.retire 5).2.push [99, 0] |>.2

theorem past_filled :
    Past thirdLast filled
      [(thirdLast, [97]), (thirdLast + 1, []), (thirdLast + 2, [99, 0])] [thirdLast] :=
  ((((Past.empty.push [97] rfl).push [] rfl).retire (by decide)).miss (by decide)).push [99, 0] rfl

theorem filled_recalls :
    (filled.get? thirdLast = none ∧ filled.load thirdLast = [97, 0]) ∧
      filled.get? (thirdLast + 1) = some [] ∧ filled.get? (thirdLast + 2) = some [99, 0] ∧
      filled.length = 2 ∧ filled.assigned = 3 ∧ filled.keyBytes = 3 ∧
      (filled.retire thirdLast).1 = false ∧
      (filled.retire (thirdLast + 2)).2.load (thirdLast + 2) = [99, 0, 0] := by
  obtain ⟨hnow, hlater⟩ := Past.recalls past_filled
  have hnone : filled.get? thirdLast = none :=
    Option.eq_none_iff_forall_ne_some.2 fun s hs => ((hnow.find _ s).1 hs).2 (by decide)
  refine ⟨⟨hnone, hnow.load thirdLast [97] (by decide)⟩, (hnow.find _ _).2 (by decide),
    (hnow.find _ _).2 (by decide), hnow.length, hnow.assigned, hnow.keyBytes, ?_, ?_⟩
  · exact Bool.eq_false_iff.2 fun hr => ((hnow.retires _).1 hr).2 (by decide)
  · exact (hlater _ (.retire _ .refl) (thirdLast + 2) [99, 0] (by decide)).1

end AdaptiveRadix.Store
