/-
The two indexes of a dictionary and its store agree. They have the same ids, each once and all counted
the same; an id stands under the key of its string, and the string under the id; and so the check
of the dictionary finds nothing, nor do the lists leave anything out.
-/
import AdaptiveRadix.Proofs.Dictionary.Storage
import AdaptiveRadix.Proofs.Index.Paths

namespace AdaptiveRadix

namespace Index.Holds

variable {load : Loader} {index : Index} {contents : Contents} {key : Key} {v : UInt64}

theorem nodup (h : index.Holds load contents) : index.leaves.Nodup := by
  refine h.ascending.imp fun {v w} hlt heq => ?_
  subst heq
  exact List.lt_irrefl _ hlt

/-- An erasure takes the payload out of the list and leaves the others as they are. -/
theorem leaves_erase (h : index.Holds load contents) (hc : contents key = some v) :
    (index.erase load key).state.leaves = index.leaves.erase v := by
  have herased := (h.erase key).2
  refine Probe.eq_of_pairwise (fun _ _ => List.lt_asymm) herased.ascending
    (h.ascending.sublist List.erase_sublist) fun w => ?_
  have hmem := h.find_erase hc (fun w => h.nodup.mem_erase_iff.trans and_comm) (load w) w
  rw [herased.find] at hmem
  simpa using hmem

end Index.Holds

namespace Dictionary

/-- The two indexes and the store of a dictionary tell the same of its ids and their strings. -/
structure Agrees (dict : Dictionary) : Prop where
  byString : ∀ id, id ∈ dict.byString.payloads ↔ dict.store.get? id ≠ none
  byId : ∀ id, id ∈ dict.byId.payloads ↔ dict.store.get? id ≠ none
  nodup_byString : dict.byString.payloads.Nodup
  nodup_byId : dict.byId.payloads.Nodup
  /-- The key of an id's string is what the store loads for it, and leads either search to it. -/
  indexed : ∀ id s, dict.store.get? id = some s → ∃ key, Key.encode s = .ok key ∧
    dict.store.load id = key ∧
    ∀ policy, dict.byString.lookupWith dict.store.load key policy = some id
  lengths : dict.byId.length = dict.byString.length ∧ dict.store.length = dict.byString.length
  inverse : ∀ s id, dict.lookupId? s = some id ↔ dict.lookupString? id = some s
  /-- No id of the index by string is passed over for want of a string. -/
  listed : dict.toList.map Prod.fst = dict.byString.payloads ∧
    ∀ id s, dict.store.get? id = some s ↔ (id, s) ∈ dict.toList
  /-- The erasure that is part of a removal by id takes out that id and no other. -/
  removal : ∀ id s, dict.lookupString? id = some s → ∃ key, Key.encode s = .ok key ∧
    (dict.removeId id).state.byString = (dict.eraseKey key).state.byString ∧
    (dict.eraseKey key).answer = some id ∧
    (dict.eraseKey key).state.byString.payloads = dict.byString.payloads.erase id
  issues : dict.issues = []

namespace Keeps

variable {dict : Dictionary} {ledger : Ledger} {s : List UInt8} {id : UInt64}

theorem mem_leaves_byString (h : dict.Keeps ledger) :
    id ∈ dict.byString.leaves ↔ dict.store.get? id ≠ none := by
  rw [h.found, h.leaves_byString, List.mem_map, Option.ne_none_iff_exists']
  constructor
  · rintro ⟨⟨s, id⟩, hs, rfl⟩
    exact ⟨s, (h.valid.inverse s id).1 (Std.TreeMap.mem_toList_iff_getElem?_eq_some.1 hs)⟩
  · rintro ⟨s, hs⟩
    have hid := (h.valid.inverse s id).2 hs
    exact ⟨(s, id), Std.TreeMap.mem_toList_iff_getElem?_eq_some.2 hid, rfl⟩

theorem mem_leaves_byId (h : dict.Keeps ledger) :
    id ∈ dict.byId.leaves ↔ dict.store.get? id ≠ none := by
  rw [h.found, h.leaves_byId, Std.TreeMap.mem_keys, Std.TreeMap.mem_iff_isSome_getElem?,
    Option.isSome_iff_ne_none]

/-- Whatever id the store has a string for is under the string's key, whichever way it is sought. -/
theorem indexed (h : dict.Keeps ledger) (hs : dict.store.get? id = some s) :
    ∃ key, Key.encode s = .ok key ∧ dict.store.load id = key ∧
      ∀ policy, dict.byString.lookupWith dict.store.load key policy = some id := by
  have hid := (h.valid.inverse s id).2 ((h.found id).symm.trans hs)
  have hkey := h.valid.encodes s id hid
  refine ⟨_, hkey, h.load_eq hid, fun policy => ?_⟩
  rw [h.byString.lookupWith_eq, stringContents_concat, hid]
  intro other ho hp
  obtain ⟨v, hv⟩ := Option.ne_none_iff_exists'.1 ho
  obtain ⟨t, rfl, ht⟩ := stringContents_eq_some_iff.1 hv
  exact (Key.eq_of_encode_isPrefix hkey (h.valid.encodes t v ht) hp).symm

/-- Both indexes list as many ids as the store counts. -/
theorem lengths (h : dict.Keeps ledger) (hcounts : dict.store.Counts) :
    dict.byId.length = dict.byString.length ∧ dict.store.length = dict.byString.length := by
  have hstrings := hcounts _ h.byString.nodup fun id => h.mem_leaves_byString
  have hids := hcounts _ h.byId.nodup fun id => h.mem_leaves_byId
  rw [h.byString.length, h.byId.length]
  exact ⟨hids.symm.trans hstrings, hstrings⟩

theorem map_fst_toList (h : dict.Keeps ledger) :
    dict.toList.map Prod.fst = dict.byString.leaves := by
  rw [h.toList_eq, h.leaves_byString, List.map_map]
  rfl

theorem mem_toList (h : dict.Keeps ledger) :
    (id, s) ∈ dict.toList ↔ dict.store.get? id = some s := by
  rw [h.found, ← h.valid.inverse, h.toList_eq, ← Std.TreeMap.mem_toList_iff_getElem?_eq_some,
    List.mem_map]
  constructor
  · rintro ⟨⟨t, v⟩, ht, heq⟩
    cases heq
    exact ht
  · exact fun hs => ⟨(s, id), hs, rfl⟩

/-- The string of an id leads an erasure back to the id. -/
theorem removal (h : dict.Keeps ledger) (hs : dict.lookupString? id = some s) :
    ∃ key, Key.encode s = .ok key ∧
      (dict.removeId id).state.byString = (dict.eraseKey key).state.byString ∧
      (dict.eraseKey key).answer = some id ∧
      (dict.eraseKey key).state.byString.payloads = dict.byString.payloads.erase id := by
  have hid := (h.valid.inverse s id).2 ((h.lookupString?_eq id).symm.trans hs)
  have hkey := h.valid.encodes s id hid
  have hc : stringContents ledger.ids (s ++ [Key.terminator]) = some id := by
    rw [stringContents_concat, hid]
  refine ⟨_, hkey, ?_, (h.drop hid).1, ?_⟩
  · rw [Dictionary.removeId, hs]
    simp only [hkey]
    rfl
  · show (dict.byString.erase dict.store.load (s ++ [Key.terminator])).state.payloads = _
    rw [(h.byString.erase _).2.payloads_eq, h.byString.payloads_eq, h.byString.leaves_erase hc]

theorem issues_eq_nil (h : dict.Keeps ledger) (hcounts : dict.store.Counts) : dict.issues = [] := by
  have hknown : ∀ id ∈ dict.byString.payloads, dict.byId.lookup idKey (idKey id) ≠ none := by
    intro id hid
    rw [h.byString.payloads_eq, h.mem_leaves_byString, ← h.mem_leaves_byId, h.leaves_byId,
      Std.TreeMap.mem_keys] at hid
    rw [h.lookup_byId, if_pos hid]
    exact Option.some_ne_none id
  rw [issues, h.byString.issues_eq_nil, h.byId.issues_eq_nil, if_pos (h.lengths hcounts)]
  simpa using hknown

/-- A dictionary that keeps a ledger agrees with itself. -/
theorem agrees (h : dict.Keeps ledger) (hcounts : dict.store.Counts) : dict.Agrees where
  byString id := by rw [h.byString.payloads_eq, h.mem_leaves_byString]
  byId id := by rw [h.byId.payloads_eq, h.mem_leaves_byId]
  nodup_byString := h.byString.payloads_eq ▸ h.byString.nodup
  nodup_byId := h.byId.payloads_eq ▸ h.byId.nodup
  indexed _ _ := h.indexed
  lengths := h.lengths hcounts
  inverse s id := by rw [h.lookupId?_eq, h.lookupString?_eq, h.valid.inverse]
  listed := ⟨h.map_fst_toList.trans h.byString.payloads_eq.symm, fun _ _ => h.mem_toList.symm⟩
  removal _ _ := h.removal
  issues := h.issues_eq_nil hcounts

end Keeps

/-- After any run the indexes and the store agree. -/
theorem run_agrees (config : Config) (calls : List DictionaryCall) :
    ((empty config).run calls).2.Agrees := by
  have hvalid : (empty config).store.Valid := Store.valid_empty config.firstId
  have hlater : (empty config).store.Later ((empty config).run calls).2.store :=
    later_run hvalid .refl calls
  have hcounts := hlater.counts hvalid (Store.counts_empty config.firstId)
  exact ((keeps_empty config).run calls).2.agrees hcounts

/-- The string that has come back counts once everywhere, under its second id. -/
example :
    let dict := ((empty ⟨5, .pessimistic⟩).run returning).2
    (dict.byString.length, dict.byId.length, dict.store.length) = (2, 2, 2) ∧
      dict.lookupId? [97] = some 7 ∧ dict.lookupString? 7 = some [97] ∧
      dict.lookupString? 5 = none := by
  decide +kernel

end Dictionary

end AdaptiveRadix
