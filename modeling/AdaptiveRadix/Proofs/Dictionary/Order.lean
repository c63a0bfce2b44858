/-
Ids in the order of the strings. A bulk load leaves them so, and a removal, or a string that comes in
after all others in order, keeps them so. As long as they are in order, the strings with a given
beginning are those whose ids lie between the two ends of a range; and right after a bulk load
every id between these ends is in use.
-/
import AdaptiveRadix.Proofs.Dictionary.StartingWith
import AdaptiveRadix.Proofs.Dictionary.Steps

namespace AdaptiveRadix

namespace Ledger

/-- The ids follow the order of the strings. -/
def Ordered (ledger : Ledger) : Prop :=
  ∀ (s t : List UInt8) (v w : UInt64), ledger.ids[s]? = some v → ledger.ids[t]? = some w → s < t → v < w

/-- A ledger whose ids follow the order of the strings and are all those from one on to the next. -/
structure Dense (first : Nat) (ledger : Ledger) : Prop where
  valid : ledger.Valid
  ordered : ledger.Ordered
  first_le : first ≤ ledger.next
  filled : ∀ id : UInt64, id ∈ ledger.strings ↔ first ≤ id.toNat ∧ id.toNat < ledger.next

variable {ledger : Ledger} {s : List UInt8} {id : UInt64} {first : Nat}

theorem Ordered.drop (h : ledger.Ordered) (id : UInt64) (s : List UInt8) :
    (ledger.drop id s).Ordered := by
  intro t u v w ht hu
  rw [getElem?_ids_drop] at ht hu
  split at ht
  · cases ht
  split at hu
  · cases hu
  exact h t u v w ht hu

/-- The next id is greater than all that are in use. -/
theorem Valid.lt_ofNat_next (h : ledger.Valid) (hroom : ledger.next < UInt64.size)
    (hid : ledger.ids[s]? = some id) : id < .ofNat ledger.next := by
  rw [UInt64.lt_iff_toNat_lt, UInt64.toNat_ofNat_of_lt' hroom]
  exact h.below s id ((h.inverse s id).1 hid)

/-- A string after all others gets an id after all others. -/
theorem Ordered.assign (h : ledger.Ordered) (hvalid : ledger.Valid)
    (hroom : ledger.next < UInt64.size) (hlast : ∀ t v, ledger.ids[t]? = some v → t < s) :
    (ledger.assign s).Ordered := by
  intro t u v w ht hu hlt
  rw [getElem?_ids_assign] at ht hu
  split at ht
  · next hts =>
    subst hts
    split at hu
    · next hut => exact absurd hlt (hut ▸ List.lt_irrefl _)
    · exact absurd hlt (List.lt_asymm (hlast u w hu))
  · split at hu
    · cases hu
      exact hvalid.lt_ofNat_next hroom ht
    · exact h t u v w ht hu hlt

theorem Valid.dense_of_isEmpty (h : ledger.Valid) (hempty : ledger.ids.isEmpty) :
    ledger.Dense ledger.next := by
  have hnone : ∀ s : List UInt8, ledger.ids[s]? = none :=
    fun s => Std.TreeMap.getElem?_of_isEmpty hempty
  refine ⟨h, fun s t v w hs => ?_, Nat.le_refl _, fun id => ?_⟩
  · rw [hnone] at hs
    cases hs
  · refine ⟨fun hid => ?_, fun hid => absurd hid.2 (Nat.not_lt.2 hid.1)⟩
    rw [Std.TreeMap.mem_iff_isSome_getElem?, Option.isSome_iff_exists] at hid
    obtain ⟨s, hs⟩ := hid
    rw [← h.inverse, hnone] at hs
    cases hs

theorem Dense.assign (h : ledger.Dense first) (hs : Key.encode s = .ok (s ++ [Key.terminator]))
    (hroom : ledger.next < UInt64.size) (hlast : ∀ t v, ledger.ids[t]? = some v → t < s) :
    (ledger.assign s).Dense first := by
  have hnew : ledger.ids[s]? = none :=
    Option.eq_none_iff_forall_ne_some.2 fun v hv => List.lt_irrefl s (hlast s v hv)
  refine ⟨h.valid.assign hs hnew hroom, h.ordered.assign h.valid hroom hlast,
    Nat.le_succ_of_le h.first_le, fun id => ?_⟩
  rw [Ledger.assign, Std.TreeMap.mem_insert, Std.LawfulEqCmp.compare_eq_iff_eq, h.filled]
  have hle := h.first_le
  have hid : UInt64.ofNat ledger.next = id ↔ id.toNat = ledger.next := by
    rw [← UInt64.toNat_inj, UInt64.toNat_ofNat_of_lt' hroom, eq_comm]
  rw [hid]
  dsimp only
  omega

/-- Strings in order, all of them after those that are there, keep a ledger dense. -/
theorem Dense.foldl_assign (h : ledger.Dense first) {strings : List (List UInt8)}
    (hencode : ∀ s ∈ strings, ∃ key, Key.encode s = .ok key)
    (hascending : strings.Pairwise (· < ·))
    (hroom : strings = [] ∨ ledger.next + strings.length ≤ UInt64.size)
    (hlast : ∀ t v, ledger.ids[t]? = some v → ∀ s ∈ strings, t < s) :
    (strings.foldl Ledger.assign ledger).Dense first := by
  induction strings generalizing ledger with
  | nil => exact h
  | cons s strings ih =>
    obtain ⟨⟨key, hkey⟩, hencode⟩ := List.forall_mem_cons.1 hencode
    obtain ⟨hs, hascending⟩ := List.pairwise_cons.1 hascending
    obtain rfl := (Key.encode_eq_ok_iff.1 hkey).2.2
    have hlength := hroom.resolve_left (List.cons_ne_nil s strings)
    rw [List.length_cons] at hlength
    have hnext := h.assign hkey (by omega) fun t v ht => hlast t v ht s List.mem_cons_self
    refine ih hnext hencode hascending (.inr ?_) fun t v ht u hu => ?_
    · show ledger.next + 1 + strings.length ≤ UInt64.size
      omega
    · rw [getElem?_ids_assign] at ht
      split at ht
      · next hts => exact hts ▸ hs u hu
      · exact hlast t v ht u (List.mem_cons_of_mem s hu)

end Ledger

theorem between_ends {l : List UInt64} {lo hi : UInt64} (hl : l.Pairwise (· < ·))
    (hends : ends? l = some (lo, hi)) : lo ∈ l ∧ hi ∈ l ∧ ∀ v ∈ l, lo ≤ v ∧ v ≤ hi := by
  obtain ⟨hlo, hhi⟩ := ends?_eq_some_iff.1 hends
  have hle : l.Pairwise (· ≤ ·) := hl.imp UInt64.le_of_lt
  refine ⟨List.mem_of_head? hlo, List.mem_of_getLast? hhi, fun v hv => ?_⟩
  have hhead := hle.rel_head hv
  have hlast := hle.rel_getLast hv
  rw [List.head_of_head?_eq_some hlo] at hhead
  rw [List.getLast_of_getLast?_eq_some hhi] at hlast
  exact ⟨hhead, hlast⟩

/-- All numbers between two, in order, are as many as there are between the two. -/
theorem length_of_mem_iff_between {l : List UInt64} {lo hi : UInt64} (hl : l.Pairwise (· < ·))
    (hle : lo ≤ hi) (hmem : ∀ v, v ∈ l ↔ lo ≤ v ∧ v ≤ hi) :
    hi.toNat + 1 = lo.toNat + l.length := by
  simp only [UInt64.le_iff_toNat_le] at hle hmem
  have hrange : l.map UInt64.toNat = List.range' lo.toNat (hi.toNat + 1 - lo.toNat) := by
    refine Probe.eq_of_pairwise (fun _ _ => Nat.lt_asymm)
      (List.pairwise_map.2 (hl.imp UInt64.lt_iff_toNat_lt.1)) List.pairwise_lt_range' fun n => ?_
    rw [List.mem_map, List.mem_range'_1]
    constructor
    · intro ⟨v, hv, hn⟩
      rw [hmem] at hv
      omega
    · intro hn
      have hsize := hi.toNat_lt_size
      have hn' : (UInt64.ofNat n).toNat = n := UInt64.toNat_ofNat_of_lt' (by omega)
      refine ⟨.ofNat n, ?_, hn'⟩
      rw [hmem, hn']
      omega
  have hlength := congrArg List.length hrange
  rw [List.length_map, List.length_range'] at hlength
  omega

namespace Dictionary

/-- The ids follow the order of the strings. -/
def Ordered (dict : Dictionary) : Prop :=
  ∀ s t v w, dict.lookupId? s = some v → dict.lookupId? t = some w → s < t → v < w

variable {dict : Dictionary} {ledger : Ledger} {s start : List UInt8} {id lo hi : UInt64}
  {wanted : List UInt8 → Prop} {entries : List (UInt64 × List UInt8)}

theorem Lists.ascending_ids (h : dict.Lists wanted entries) (ho : dict.Ordered) :
    (entries.map Prod.fst).Pairwise (· < ·) := by
  refine List.pairwise_map.2 (h.ascending.imp_of_mem ?_)
  rintro ⟨v, s⟩ ⟨w, t⟩ hs ht hlt
  exact ho s t v w ((h.mem v s).1 hs).1 ((h.mem w t).1 ht).1 hlt

namespace Keeps

theorem ordered_iff (h : dict.Keeps ledger) : dict.Ordered ↔ ledger.Ordered := by
  simp only [Dictionary.Ordered, Ledger.Ordered, h.lookupId?_eq]

theorem ordered_remove (h : dict.Keeps ledger) (ho : dict.Ordered) (s : List UInt8) :
    (dict.remove s).state.Ordered := by
  rw [(h.remove s).keeps.ordered_iff]
  rw [h.ordered_iff] at ho
  rcases h.valid.remove_cases s with hdone | ⟨id, -, hdone⟩
  · rwa [hdone]
  · rw [hdone]
    exact ho.drop id s

theorem ordered_removeId (h : dict.Keeps ledger) (ho : dict.Ordered) (id : UInt64) :
    (dict.removeId id).state.Ordered := by
  rw [(h.removeId id).keeps.ordered_iff]
  rw [h.ordered_iff] at ho
  rcases ledger.removeId_cases id with ⟨-, hdone⟩ | ⟨s, -, hdone⟩
  · rwa [hdone]
  · rw [hdone]
    exact ho.drop id s

theorem ordered_insert (h : dict.Keeps ledger) (ho : dict.Ordered)
    (hlast : ∀ t, dict.contains t → t < s) : (dict.insert s).state.Ordered := by
  rw [(h.insert s).keeps.ordered_iff]
  rw [h.ordered_iff] at ho
  rcases ledger.insert_cases s with ⟨_, hdone⟩ | ⟨id, -, hdone⟩ | ⟨-, -, hroom, hdone⟩
  · rwa [hdone]
  · rwa [hdone]
  · rw [hdone]
    refine ho.assign h.valid hroom fun t v ht => hlast t ?_
    rw [contains, h.lookupId?_eq, ht]
    rfl

/-- After a bulk load the ids are all those from the first that it has given out. -/
theorem dense_bulkLoad (h : dict.Keeps ledger) {strings : List (List UInt8)} {n : Nat}
    (hok : (dict.bulkLoad strings).answer = .ok n) :
    ∃ loaded, (dict.bulkLoad strings).state.Keeps loaded ∧ loaded.Dense ledger.next := by
  obtain ⟨hanswer, hkeeps⟩ := h.bulkLoad strings
  refine ⟨_, hkeeps, ?_⟩
  rcases ledger.bulkLoad_cases strings with
    ⟨reason, hdone⟩ | ⟨hempty, hencode, hascending, hroom, hdone⟩
  · rw [hdone] at hanswer
    cases hok.symm.trans hanswer
  · rw [hdone]
    refine (h.valid.dense_of_isEmpty hempty).foldl_assign hencode hascending hroom fun t v ht => ?_
    rw [Std.TreeMap.getElem?_of_isEmpty hempty] at ht
    cases ht

/-! ## Ranges -/

theorem mem_map_fst (h : dict.Keeps ledger) (hlists : dict.Lists wanted entries) :
    id ∈ entries.map Prod.fst ↔ ∃ s, dict.lookupString? id = some s ∧ wanted s := by
  rw [List.mem_map]
  constructor
  · rintro ⟨⟨id, s⟩, he, rfl⟩
    obtain ⟨hid, hw⟩ := (hlists.mem id s).1 he
    rw [h.lookupId?_eq, h.valid.inverse, ← h.lookupString?_eq] at hid
    exact ⟨s, hid, hw⟩
  · rintro ⟨s, hs, hw⟩
    rw [h.lookupString?_eq, ← h.valid.inverse, ← h.lookupId?_eq] at hs
    exact ⟨(id, s), (hlists.mem id s).2 ⟨hs, hw⟩, rfl⟩

/-- Strings between two that begin alike begin so, too, and their ids are between the ids of the two. -/
theorem mem_map_fst_iff_between (h : dict.Keeps ledger) (ho : dict.Ordered)
    (hlists : dict.Lists (start <+: ·) entries)
    (hends : ends? (entries.map Prod.fst) = some (lo, hi)) :
    id ∈ entries.map Prod.fst ↔ dict.lookupString? id ≠ none ∧ lo ≤ id ∧ id ≤ hi := by
  obtain ⟨hlo, hhi, hbetween⟩ := between_ends (hlists.ascending_ids ho) hends
  constructor
  · intro hid
    obtain ⟨s, hs, -⟩ := (h.mem_map_fst hlists).1 hid
    exact ⟨by rw [hs]; exact Option.some_ne_none s, hbetween id hid⟩
  · rintro ⟨hid, hloid, hidhi⟩
    obtain ⟨s, hs⟩ := Option.ne_none_iff_exists'.1 hid
    obtain ⟨a, ha, hpa⟩ := (h.mem_map_fst hlists).1 hlo
    obtain ⟨b, hb, hpb⟩ := (h.mem_map_fst hlists).1 hhi
    refine (h.mem_map_fst hlists).2 ⟨s, hs, ?_⟩
    simp only [h.lookupString?_eq, ← h.valid.inverse, ← h.lookupId?_eq] at hs ha hb
    refine Key.isPrefix_of_le_of_le hpa hpb (List.not_lt.1 fun hlt => ?_)
      (List.not_lt.1 fun hlt => ?_)
    · exact UInt64.not_lt.2 hloid (ho s a id lo hs ha hlt)
    · exact UInt64.not_lt.2 hidhi (ho b s hi id hb hs hlt)

/-- Where every id between two in use is in use, a range has as many ids as strings. -/
theorem range_length (h : dict.Keeps ledger) {first : Nat} (hdense : ledger.Dense first)
    (hlists : dict.Lists (start <+: ·) entries)
    (hends : ends? (entries.map Prod.fst) = some (lo, hi)) :
    hi.toNat + 1 = lo.toNat + entries.length := by
  have ho : dict.Ordered := h.ordered_iff.2 hdense.ordered
  have hids := hlists.ascending_ids ho
  obtain ⟨hlo, hhi, hbetween⟩ := between_ends hids hends
  have hlive : ∀ id, dict.lookupString? id ≠ none ↔ first ≤ id.toNat ∧ id.toNat < ledger.next := by
    intro id
    rw [← hdense.filled, h.lookupString?_eq, Std.TreeMap.mem_iff_isSome_getElem?,
      Option.isSome_iff_ne_none]
  have hmem : ∀ id, id ∈ entries.map Prod.fst ↔
      dict.lookupString? id ≠ none ∧ lo ≤ id ∧ id ≤ hi :=
    fun _ => h.mem_map_fst_iff_between ho hlists hends
  -- The ends are in use, so whatever is between them is.
  have hloLive := (hlive lo).1 ((hmem lo).1 hlo).1
  have hhiLive := (hlive hi).1 ((hmem hi).1 hhi).1
  have hfilled : ∀ id, id ∈ entries.map Prod.fst ↔ lo ≤ id ∧ id ≤ hi := by
    intro id
    rw [hmem, hlive, UInt64.le_iff_toNat_le, UInt64.le_iff_toNat_le]
    omega
  have hlength := length_of_mem_iff_between hids (hbetween hi hhi).1 hfilled
  rwa [List.length_map] at hlength

end Keeps

/-- After any run: a bulk load leaves ids in the order of the strings, and in its ranges no id is
missing; removals and a last string keep them in order; and as long as they are in order the ids
in use between the ends of a range are those of the strings that begin as asked. -/
theorem run_ordered (config : Config) (calls : List DictionaryCall) :
    let dict := ((empty config).run calls).2
    (∀ strings n, (dict.bulkLoad strings).answer = .ok n →
      let loaded := (dict.bulkLoad strings).state
      loaded.Ordered ∧ ∀ start lo hi, Key.terminator ∉ start →
        loaded.rangeStartingWith? start = some (lo, hi) →
          ∃ entries, loaded.Lists (start <+: ·) entries ∧
            hi.toNat + 1 = lo.toNat + entries.length) ∧
    (dict.Ordered →
      (∀ s, (dict.remove s).state.Ordered) ∧ (∀ id, (dict.removeId id).state.Ordered) ∧
      (∀ s, (∀ t, dict.contains t → t < s) → (dict.insert s).state.Ordered) ∧
      ∀ start, Key.terminator ∉ start →
        (dict.rangeStartingWith? start = none ↔ ∀ s, dict.contains s → ¬ start <+: s) ∧
        ∀ lo hi, dict.rangeStartingWith? start = some (lo, hi) → ∀ id,
          (dict.lookupString? id ≠ none ∧ lo ≤ id ∧ id ≤ hi) ↔
            ∃ s, dict.lookupString? id = some s ∧ start <+: s) := by
  intro dict
  have h := ((keeps_empty config).run calls).2
  refine ⟨fun strings n hok => ?_, fun ho => ?_⟩
  · obtain ⟨ledger, hkeeps, hdense⟩ := h.dense_bulkLoad hok
    refine ⟨hkeeps.ordered_iff.2 hdense.ordered, fun start lo hi hstart hrange => ?_⟩
    obtain ⟨entries, hlists, -, hends⟩ := hkeeps.startingWith_of_not_mem hstart
    exact ⟨entries, hlists, hkeeps.range_length hdense hlists (hends.symm.trans hrange)⟩
  · refine ⟨h.ordered_remove ho, h.ordered_removeId ho, fun s => h.ordered_insert ho,
      fun start hstart => ?_⟩
    obtain ⟨entries, hlists, -, hends⟩ := h.startingWith_of_not_mem hstart
    refine ⟨?_, fun lo hi hrange id => ?_⟩
    · rw [hends, ends?_eq_none_iff, List.map_eq_nil_iff, hlists.eq_nil_iff]
    · rw [← h.mem_map_fst_iff_between ho hlists (hends.symm.trans hrange), h.mem_map_fst hlists]

/-- Three strings are loaded when an id has been given out and taken back, so that they get the ids
from 2 to 4; two of them begin alike. -/
theorem loads_in_order :
    let loaded :=
      (((empty {}).run [.insert [120], .remove [120]]).2.bulkLoad [[97], [97, 98], [98]]).state
    loaded.Ordered ∧ (loaded.removeId 2).state.Ordered ∧
      (∃ entries, loaded.Lists ([97] <+: ·) entries ∧ 3 + 1 = 2 + entries.length) ∧
      ∀ id, (loaded.lookupString? id ≠ none ∧ 2 ≤ id ∧ id ≤ 3) ↔
        ∃ s, loaded.lookupString? id = some s ∧ [97] <+: s := by
  intro loaded
  have hstart : Key.terminator ∉ [97] := by decide
  have hrange : loaded.rangeStartingWith? [97] = some (2, 3) := by decide +kernel
  obtain ⟨hload, -⟩ := run_ordered {} [.insert [120], .remove [120]]
  obtain ⟨hordered, hcount⟩ := hload [[97], [97, 98], [98]] 3 (by cbv)
  obtain ⟨-, hkept⟩ :=
    run_ordered {} [.insert [120], .remove [120], .bulkLoad [[97], [97, 98], [98]]]
  obtain ⟨-, hremoved, -, hbetween⟩ := hkept hordered
  exact ⟨hordered, hremoved 2, hcount [97] 2 3 hstart hrange,
    (hbetween [97] hstart).2 2 3 hrange⟩

end Dictionary

end AdaptiveRadix
