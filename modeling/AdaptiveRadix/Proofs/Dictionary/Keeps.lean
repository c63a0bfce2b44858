/-
A dictionary that keeps a ledger. Its store finds the strings of the ledger, one index holds the
ids of the ledger at the keys of their strings, and the other the ids at their own keys; then
every search and every list of the dictionary shows the ledger.
-/
import AdaptiveRadix.Proofs.Dictionary.Ledger
import AdaptiveRadix.Proofs.Index.Lookup
import AdaptiveRadix.Proofs.Key.Encode
import AdaptiveRadix.Proofs.Store

namespace AdaptiveRadix

/-- What the index by string is to hold. -/
def stringContents (ids : Std.TreeMap (List UInt8) UInt64) : Contents := fun key =>
  (Key.decode? key).bind fun s => ids[s]?

/-- What the index by id is to hold: the ids in use, each at its own key. -/
def idContents (strings : Std.TreeMap UInt64 (List UInt8)) : Contents := fun key =>
  (Key.toUInt64? key).filter (· ∈ strings)

section Contents

variable {ids : Std.TreeMap (List UInt8) UInt64} {strings : Std.TreeMap UInt64 (List UInt8)}
  {s : List UInt8} {id : UInt64} {key : Key}

theorem stringContents_eq_some_iff :
    stringContents ids key = some id ↔ ∃ s, key = s ++ [Key.terminator] ∧ ids[s]? = some id := by
  rw [stringContents, Option.bind_eq_some_iff]
  simp only [Key.decode?_eq_some_iff]

theorem stringContents_concat (ids : Std.TreeMap (List UInt8) UInt64) (s : List UInt8) :
    stringContents ids (s ++ [Key.terminator]) = ids[s]? := by
  rw [stringContents, Key.decode?_eq_some_iff.2 rfl, Option.bind_some]

theorem stringContents_eq_none_iff : (∀ key, stringContents ids key = none) ↔ ids.isEmpty := by
  rw [Std.TreeMap.isEmpty_iff_forall_not_mem]
  constructor
  · intro hnone s hs
    have hs := Std.TreeMap.mem_iff_isSome_getElem?.1 hs
    rw [← stringContents_concat, hnone] at hs
    cases hs
  · intro hnot key
    refine Option.eq_none_iff_forall_ne_some.2 fun id hid => ?_
    obtain ⟨s, -, hs⟩ := stringContents_eq_some_iff.1 hid
    exact hnot s (Std.TreeMap.mem_iff_isSome_getElem?.2 (by rw [hs, Option.isSome_some]))

/-- A change at one string is seen at its key only. -/
theorem stringContents_update {ids' : Std.TreeMap (List UInt8) UInt64}
    (h : ∀ t, t ≠ s → ids'[t]? = ids[t]?) :
    stringContents ids' =
      Function.update (stringContents ids) (s ++ [Key.terminator]) ids'[s]? := by
  funext key
  by_cases hk : key = s ++ [Key.terminator]
  · rw [hk, Function.update_self, stringContents_concat]
  · rw [Function.update_of_ne hk, stringContents, stringContents]
    refine Option.bind_congr fun t ht => h t ?_
    rintro rfl
    exact hk (Key.decode?_eq_some_iff.1 ht)

theorem stringContents_insert (ids : Std.TreeMap (List UInt8) UInt64) (s : List UInt8)
    (id : UInt64) :
    stringContents (ids.insert s id) =
      Function.update (stringContents ids) (s ++ [Key.terminator]) (some id) := by
  rw [← Std.TreeMap.getElem?_insert_self (t := ids) (k := s)]
  refine stringContents_update fun t ht => ?_
  rw [Std.TreeMap.getElem?_insert, if_neg]
  rw [Std.LawfulEqCmp.compare_eq_iff_eq]
  exact ht.symm

theorem stringContents_erase (ids : Std.TreeMap (List UInt8) UInt64) (s : List UInt8) :
    stringContents (ids.erase s) =
      Function.update (stringContents ids) (s ++ [Key.terminator]) none := by
  rw [← Std.TreeMap.getElem?_erase_self (t := ids) (k := s)]
  refine stringContents_update fun t ht => ?_
  rw [Std.TreeMap.getElem?_erase, if_neg]
  rw [Std.LawfulEqCmp.compare_eq_iff_eq]
  exact ht.symm

theorem idContents_eq_some_iff :
    idContents strings key = some id ↔ key = Dictionary.idKey id ∧ id ∈ strings := by
  rw [idContents, Option.filter_eq_some_iff, Key.toUInt64?_eq_some_iff, decide_eq_true_iff,
    Dictionary.idKey]

theorem idContents_idKey (strings : Std.TreeMap UInt64 (List UInt8)) (id : UInt64) :
    idContents strings (Dictionary.idKey id) = if id ∈ strings then some id else none := by
  refine Option.ext fun other => ?_
  rw [idContents_eq_some_iff, Option.ite_none_right_eq_some, Option.some.injEq, Dictionary.idKey,
    Dictionary.idKey, Key.ofUInt64_inj]
  constructor
  · rintro ⟨rfl, h⟩
    exact ⟨h, rfl⟩
  · rintro ⟨h, rfl⟩
    exact ⟨rfl, h⟩

/-- A change at one id is seen at its key only. -/
theorem idContents_update {strings' : Std.TreeMap UInt64 (List UInt8)}
    (h : ∀ other, other ≠ id → (other ∈ strings' ↔ other ∈ strings)) :
    idContents strings' = Function.update (idContents strings) (Dictionary.idKey id)
      (if id ∈ strings' then some id else none) := by
  funext key
  by_cases hk : key = Dictionary.idKey id
  · rw [hk, Function.update_self, idContents_idKey]
  · rw [Function.update_of_ne hk]
    refine Option.ext fun other => ?_
    rw [idContents_eq_some_iff, idContents_eq_some_iff]
    refine and_congr_right fun hother => h other ?_
    rintro rfl
    exact hk hother

theorem idContents_insert (strings : Std.TreeMap UInt64 (List UInt8)) (id : UInt64)
    (s : List UInt8) :
    idContents (strings.insert id s) =
      Function.update (idContents strings) (Dictionary.idKey id) (some id) := by
  have hmem : id ∈ strings.insert id s := Std.TreeMap.mem_insert_self
  have hother : ∀ other, other ≠ id → (other ∈ strings.insert id s ↔ other ∈ strings) := by
    intro other hne
    rw [Std.TreeMap.mem_insert, Std.LawfulEqCmp.compare_eq_iff_eq]
    exact or_iff_right hne.symm
  rw [idContents_update hother, if_pos hmem]

theorem idContents_erase (strings : Std.TreeMap UInt64 (List UInt8)) (id : UInt64) :
    idContents (strings.erase id) =
      Function.update (idContents strings) (Dictionary.idKey id) none := by
  have hmem : id ∉ strings.erase id := by simp
  have hother : ∀ other, other ≠ id → (other ∈ strings.erase id ↔ other ∈ strings) := by
    intro other hne
    rw [Std.TreeMap.mem_erase, ne_eq, Std.LawfulEqCmp.compare_eq_iff_eq]
    exact and_iff_right hne.symm
  rw [idContents_update hother, if_neg hmem]

end Contents

namespace Dictionary

/-- The store, the index by string and the index by id hold what a ledger says. -/
structure Keeps (dict : Dictionary) (ledger : Ledger) : Prop where
  valid : ledger.Valid
  store : dict.store.Valid
  next : ledger.next = dict.store.firstId.toNat + dict.store.assigned
  found : ∀ id : UInt64, dict.store.get? id = ledger.strings[id]?
  byString : dict.byString.Holds dict.store.load (stringContents ledger.ids)
  byId : dict.byId.Holds idKey (idContents ledger.strings)

/-- What a dictionary shows of itself, told by the two maps of a ledger. -/
structure Shows (dict : Dictionary) (ledger : Ledger) : Prop where
  lookupId : ∀ s : List UInt8, dict.lookupId? s = ledger.ids[s]?
  lookupString : ∀ id : UInt64, dict.lookupString? id = ledger.strings[id]?
  contains : ∀ s : List UInt8, dict.contains s = ledger.ids.contains s
  length : dict.length = ledger.ids.size
  isEmpty : dict.isEmpty = ledger.ids.isEmpty
  toList : dict.toList = ledger.ids.toList.map Prod.swap
  ids : dict.ids = ledger.strings.keys
  minId : dict.minId? = ledger.strings.minKey?
  maxId : dict.maxId? = ledger.strings.maxKey?

variable {dict : Dictionary} {ledger : Ledger} {s : List UInt8} {key : Key} {id : UInt64}

namespace Keeps

/-! ## Searches -/

/-- No string's key goes on from another's, so either policy finds just the string sought. -/
theorem idOf?_eq (h : dict.Keeps ledger) (hs : Key.encode s = .ok key) :
    dict.idOf? key = ledger.ids[s]? := by
  rw [idOf?, h.byString.lookup_eq, (Key.encode_eq_ok_iff.1 hs).2.2, stringContents_concat]
  intro other ho hp
  obtain ⟨v, hv⟩ := Option.ne_none_iff_exists'.1 ho
  obtain ⟨t, rfl, ht⟩ := stringContents_eq_some_iff.1 hv
  exact (Key.eq_of_encode_isPrefix hs (h.valid.encodes t v ht) hp).symm

theorem lookupId?_eq (h : dict.Keeps ledger) (s : List UInt8) :
    dict.lookupId? s = ledger.ids[s]? := by
  rw [lookupId?]
  cases hs : Key.encode s with
  | ok key => exact h.idOf?_eq hs
  | error reason =>
    refine (Option.eq_none_iff_forall_ne_some.2 fun id hid => ?_).symm
    cases hs.symm.trans (h.valid.encodes s id hid)

theorem lookup_byId (h : dict.Keeps ledger) (id : UInt64) :
    dict.byId.lookup idKey (idKey id) = if id ∈ ledger.strings then some id else none := by
  rw [h.byId.lookup_eq, idContents_idKey]
  intro other ho hp
  obtain ⟨v, hv⟩ := Option.ne_none_iff_exists'.1 ho
  obtain ⟨rfl, -⟩ := idContents_eq_some_iff.1 hv
  rw [Key.eq_of_ofUInt64_isPrefix hp]

theorem lookupString?_eq (h : dict.Keeps ledger) (id : UInt64) :
    dict.lookupString? id = ledger.strings[id]? := by
  rw [lookupString?, h.lookup_byId]
  split
  · rw [Option.bind_some, h.found]
  · next hid => rw [Option.bind_none, Std.TreeMap.getElem?_eq_none hid]

/-! ## Lists -/

theorem load_eq (h : dict.Keeps ledger) (hid : ledger.ids[s]? = some id) :
    dict.store.load id = s ++ [Key.terminator] :=
  Store.load_of_get? ((h.found id).trans ((h.valid.inverse s id).1 hid))

/-- The index by string has its ids in the order of the strings. -/
theorem leaves_byString (h : dict.Keeps ledger) :
    dict.byString.leaves = ledger.ids.toList.map Prod.snd := by
  refine Probe.eq_of_pairwise (fun _ _ => List.lt_asymm) h.byString.ascending ?_ fun id => ?_
  · refine List.pairwise_map.2 (Std.TreeMap.ordered_keys_toList.imp_of_mem ?_)
    rintro ⟨s, v⟩ ⟨t, w⟩ hs ht hlt
    rw [Std.TreeMap.mem_toList_iff_getElem?_eq_some] at hs ht
    have hcompare := Key.encode_lt_iff (h.valid.encodes s v hs) (h.valid.encodes t w ht)
    rw [h.load_eq hs, h.load_eq ht, hcompare]
    exact Key.compare_eq_lt_iff.1 hlt
  · rw [List.mem_map]
    constructor
    · intro hid
      obtain ⟨s, -, hs⟩ := stringContents_eq_some_iff.1 (h.byString.of_mem hid)
      exact ⟨(s, id), Std.TreeMap.mem_toList_iff_getElem?_eq_some.2 hs, rfl⟩
    · rintro ⟨⟨s, id⟩, hs, rfl⟩
      rw [Std.TreeMap.mem_toList_iff_getElem?_eq_some] at hs
      exact ((h.byString.find _ id).1 (stringContents_eq_some_iff.2 ⟨s, rfl, hs⟩)).1

theorem leaves_byId (h : dict.Keeps ledger) : dict.byId.leaves = ledger.strings.keys := by
  refine Probe.eq_of_pairwise (fun _ _ => List.lt_asymm) h.byId.ascending ?_ fun id => ?_
  · exact Std.TreeMap.ordered_keys.imp fun hlt => Key.ofUInt64_lt_iff.2 (Std.compare_eq_lt.1 hlt)
  · rw [Std.TreeMap.mem_keys]
    constructor
    · intro hid
      exact (idContents_eq_some_iff.1 (h.byId.of_mem hid)).2
    · intro hid
      exact ((h.byId.find _ id).1 (idContents_eq_some_iff.2 ⟨rfl, hid⟩)).1

theorem toList_eq (h : dict.Keeps ledger) : dict.toList = ledger.ids.toList.map Prod.swap := by
  unfold toList
  rw [h.byString.payloads_eq, h.leaves_byString, List.filterMap_map, ← List.filterMap_eq_map]
  refine List.filterMap_congr fun entry he => ?_
  have hid := Std.TreeMap.mem_toList_iff_getElem?_eq_some.1 he
  simp only [Function.comp_apply, h.found, (h.valid.inverse entry.1 entry.2).1 hid, Option.map_some]
  rfl

/-- A dictionary that keeps a ledger shows it. -/
theorem shows (h : dict.Keeps ledger) : dict.Shows ledger where
  lookupId := h.lookupId?_eq
  lookupString := h.lookupString?_eq
  contains s := by
    rw [contains, h.lookupId?_eq, Std.TreeMap.contains_eq_isSome_getElem?]
  length := by
    rw [length, h.byString.length, h.leaves_byString, List.length_map, Std.TreeMap.length_toList]
  isEmpty := by
    rw [isEmpty, Bool.eq_iff_iff, h.byString.isEmpty_iff, stringContents_eq_none_iff]
  toList := h.toList_eq
  ids := by rw [ids, h.byId.payloads_eq, h.leaves_byId]
  minId := by rw [minId?, h.byId.minimum?_eq, h.leaves_byId, Std.TreeMap.minKey?_eq_head?_keys]
  maxId := by rw [maxId?, h.byId.maximum?_eq, h.leaves_byId, Std.TreeMap.maxKey?_eq_getLast?_keys]

end Keeps

end Dictionary

end AdaptiveRadix
