/-
A function from bytes to children, read byte by byte: its entries are in ascending order and
are determined by the function, and a change under one byte changes them in one place only.
Every search beside a byte or from an end is a search of the entries.
-/
import Mathlib
import AdaptiveRadix.Node.Membership

namespace AdaptiveRadix.Probe

variable {α : Type} {find? : UInt8 → Option α} {byte : UInt8}

/-! ## All bytes -/

theorem mem_allBytes (byte : UInt8) : byte ∈ allBytes :=
  List.mem_map.2 ⟨byte.toNat, List.mem_range.2 byte.toNat_lt, UInt8.ofNat_toNat⟩

theorem toNat_ofNat_of_mem {n : Nat} (h : n ∈ List.range 256) : (UInt8.ofNat n).toNat = n :=
  UInt8.toNat_ofNat_of_lt' (List.mem_range.1 h)

theorem pairwise_allBytes : allBytes.Pairwise (· < ·) := by
  rw [allBytes, List.pairwise_map]
  refine List.pairwise_lt_range.imp_of_mem fun ha hb h => ?_
  rwa [UInt8.lt_iff_toNat_lt, toNat_ofNat_of_mem ha, toNat_ofNat_of_mem hb]

theorem allBytes_eq_split (byte : UInt8) :
    allBytes = allBytes.take byte.toNat ++ byte :: allBytes.drop (byte.toNat + 1) := by
  have hlen : byte.toNat < allBytes.length := by
    have := byte.toNat_lt
    simpa [allBytes] using this
  have hget : allBytes[byte.toNat] = byte := by simp [allBytes]
  conv_lhs => rw [← List.take_append_drop byte.toNat allBytes, List.drop_eq_getElem_cons hlen, hget]

/-- The bytes before a byte are those that are less, and those after it are those that are greater. -/
theorem mem_take_allBytes {b : UInt8} : b ∈ allBytes.take byte.toNat ↔ b < byte := by
  have hs := pairwise_allBytes
  rw [allBytes_eq_split byte, List.pairwise_append, List.pairwise_cons] at hs
  obtain ⟨-, ⟨hgt, -⟩, hlt⟩ := hs
  refine ⟨fun h => hlt b h byte List.mem_cons_self, fun h => ?_⟩
  have hm := mem_allBytes b
  rw [allBytes_eq_split byte, List.mem_append, List.mem_cons] at hm
  rcases hm with hm | rfl | hm
  · exact hm
  · exact absurd h (UInt8.lt_irrefl b)
  · exact absurd h (UInt8.lt_asymm (hgt b hm))

theorem mem_drop_allBytes {b : UInt8} : b ∈ allBytes.drop (byte.toNat + 1) ↔ byte < b := by
  have hs := pairwise_allBytes
  rw [allBytes_eq_split byte, List.pairwise_append, List.pairwise_cons] at hs
  obtain ⟨-, ⟨hgt, -⟩, hlt⟩ := hs
  refine ⟨hgt b, fun h => ?_⟩
  have hm := mem_allBytes b
  rw [allBytes_eq_split byte, List.mem_append, List.mem_cons] at hm
  rcases hm with hm | rfl | hm
  · exact absurd h (UInt8.lt_asymm (hlt b hm byte List.mem_cons_self))
  · exact absurd h (UInt8.lt_irrefl b)
  · exact hm

/-! ## Entries -/

theorem mem_filterMap {bytes : List UInt8} {entry : UInt8 × α} :
    (entry ∈ bytes.filterMap fun b => (find? b).map (b, ·)) ↔
      entry.1 ∈ bytes ∧ find? entry.1 = some entry.2 := by
  obtain ⟨b, child⟩ := entry
  simp only [List.mem_filterMap, Option.map_eq_some_iff, Prod.mk.injEq]
  constructor
  · rintro ⟨_, hb, _, hc, rfl, rfl⟩
    exact ⟨hb, hc⟩
  · rintro ⟨hb, hc⟩
    exact ⟨b, hb, child, hc, rfl, rfl⟩

theorem mem_entries {entry : UInt8 × α} :
    entry ∈ entries find? ↔ find? entry.1 = some entry.2 :=
  mem_filterMap.trans (and_iff_right (mem_allBytes _))

theorem pairwise_filterMap {bytes : List UInt8} (h : bytes.Pairwise (· < ·)) :
    (bytes.filterMap fun b => (find? b).map (b, ·)).Pairwise (·.1 < ·.1) := by
  refine h.filterMap _ fun a b hab x hx y hy => ?_
  obtain ⟨_, _, rfl⟩ := Option.map_eq_some_iff.1 hx
  obtain ⟨_, _, rfl⟩ := Option.map_eq_some_iff.1 hy
  exact hab

theorem pairwise_entries (find? : UInt8 → Option α) :
    (entries find?).Pairwise (·.1 < ·.1) :=
  pairwise_filterMap pairwise_allBytes

/-- Two lists in the same strict order that hold the same things are the same. -/
theorem eq_of_pairwise {β : Type} {r : β → β → Prop} (hasymm : ∀ x y, r x y → ¬ r y x)
    {l₁ l₂ : List β} (h₁ : l₁.Pairwise r) (h₂ : l₂.Pairwise r) (hm : ∀ x, x ∈ l₁ ↔ x ∈ l₂) :
    l₁ = l₂ := by
  have hne : ∀ {x y}, r x y → x ≠ y := by
    rintro x y hxy rfl
    exact hasymm x x hxy hxy
  have hperm : l₁.Perm l₂ := (List.perm_ext_iff_of_nodup (h₁.imp hne) (h₂.imp hne)).2 hm
  exact hperm.eq_of_pairwise (fun x y _ _ hxy hyx => absurd hyx (hasymm x y hxy)) h₁ h₂

theorem eq_of_ascending {l₁ l₂ : List (UInt8 × α)} (h₁ : l₁.Pairwise (·.1 < ·.1))
    (h₂ : l₂.Pairwise (·.1 < ·.1)) (hm : ∀ entry, entry ∈ l₁ ↔ entry ∈ l₂) : l₁ = l₂ :=
  eq_of_pairwise (fun _ _ => UInt8.lt_asymm) h₁ h₂ hm

/-- A function's entries are the one ascending list that holds what the function finds. -/
theorem entries_eq {l : List (UInt8 × α)} (hs : l.Pairwise (·.1 < ·.1))
    (hm : ∀ entry, entry ∈ l ↔ find? entry.1 = some entry.2) : entries find? = l :=
  eq_of_ascending (pairwise_entries find?) hs fun entry => by rw [mem_entries, hm]

/-- What is made of the children is found as they are. -/
theorem map_entries {β : Type} (find? : UInt8 → Option α) (f : α → β) :
    (entries find?).map (fun entry => (entry.1, f entry.2)) =
      entries fun byte => (find? byte).map f := by
  rw [entries, entries, List.map_filterMap]
  refine List.filterMap_congr fun byte _ => ?_
  rw [Option.map_map, Option.map_map]
  rfl

/-- A change under a byte is not seen where the byte is not asked for. -/
theorem filterMap_update (find? : UInt8 → Option α) (slot : Option α) {bytes : List UInt8}
    (h : byte ∉ bytes) :
    (bytes.filterMap fun b => (Function.update find? byte slot b).map (b, ·)) =
      bytes.filterMap fun b => (find? b).map (b, ·) := by
  refine List.filterMap_congr fun b hb => ?_
  rw [Function.update_of_ne (ne_of_mem_of_not_mem hb h)]

/-- Whatever stands under one byte, the entries before and after it stay the same. -/
theorem entries_update (find? : UInt8 → Option α) (byte : UInt8) :
    ∃ lo hi, (∀ entry ∈ lo, entry.1 < byte) ∧ (∀ entry ∈ hi, byte < entry.1) ∧
      ∀ slot : Option α,
        entries (Function.update find? byte slot) = lo ++ (slot.map (byte, ·)).toList ++ hi := by
  refine ⟨(allBytes.take byte.toNat).filterMap fun b => (find? b).map (b, ·),
    (allBytes.drop (byte.toNat + 1)).filterMap fun b => (find? b).map (b, ·),
    fun entry h => mem_take_allBytes.1 (mem_filterMap.1 h).1,
    fun entry h => mem_drop_allBytes.1 (mem_filterMap.1 h).1, fun slot => ?_⟩
  have hlo : byte ∉ allBytes.take byte.toNat := fun h => UInt8.lt_irrefl _ (mem_take_allBytes.1 h)
  have hhi : byte ∉ allBytes.drop (byte.toNat + 1) :=
    fun h => UInt8.lt_irrefl _ (mem_drop_allBytes.1 h)
  rw [entries, congrArg (List.filterMap _) (allBytes_eq_split byte), List.filterMap_append,
    List.filterMap_cons, filterMap_update find? slot hlo, filterMap_update find? slot hhi,
    Function.update_self]
  cases slot <;> simp

theorem length_entries_insert (h : find? byte = none) (child : α) :
    (entries (Function.update find? byte (some child))).length = (entries find?).length + 1 := by
  obtain ⟨lo, hi, -, -, hu⟩ := entries_update find? byte
  have hold := hu none
  rw [← h, Function.update_eq_self] at hold
  rw [hu, hold]
  simp [h]
  omega

theorem length_entries_replace (h : (find? byte).isSome) (child : α) :
    (entries (Function.update find? byte (some child))).length = (entries find?).length := by
  obtain ⟨old, h⟩ := Option.isSome_iff_exists.1 h
  obtain ⟨lo, hi, -, -, hu⟩ := entries_update find? byte
  have hold := hu (some old)
  rw [← h, Function.update_eq_self] at hold
  rw [hu, hold]
  simp [h]

theorem length_entries_remove (h : (find? byte).isSome) :
    (entries (Function.update find? byte none)).length + 1 = (entries find?).length := by
  obtain ⟨old, h⟩ := Option.isSome_iff_exists.1 h
  obtain ⟨lo, hi, -, -, hu⟩ := entries_update find? byte
  have hold := hu (some old)
  rw [← h, Function.update_eq_self] at hold
  rw [hu, hold]
  simp [h]
  omega

theorem length_entries_le (find? : UInt8 → Option α) : (entries find?).length ≤ 256 := by
  have hlen : allBytes.length = 256 := by simp [allBytes]
  rw [← hlen]
  exact List.length_filterMap_le ..

theorem length_entries_lt (h : find? byte = none) (child : α) : (entries find?).length < 256 := by
  have := length_entries_le (Function.update find? byte (some child))
  rw [length_entries_insert h] at this
  omega

/-! ## Searches -/

theorem search_eq_head? (find? : UInt8 → Option α) (bytes : List UInt8) :
    search find? bytes = (bytes.filterMap fun b => (find? b).map (b, ·)).head? :=
  List.head?_filterMap.symm

theorem first?_eq (find? : UInt8 → Option α) : first? find? = (entries find?).head? :=
  search_eq_head? find? allBytes

theorem last?_eq (find? : UInt8 → Option α) : last? find? = (entries find?).getLast? := by
  rw [last?, search_eq_head?, List.filterMap_reverse, List.head?_reverse]
  rfl

/-- The entries whose bytes are of a kind are found by asking for the bytes of that kind. -/
theorem filter_entries (p : UInt8 → Bool) {bytes : List UInt8} (hs : bytes.Pairwise (· < ·))
    (hb : ∀ b, b ∈ bytes ↔ p b) :
    (entries find?).filter (p ·.1) = bytes.filterMap fun b => (find? b).map (b, ·) := by
  refine eq_of_ascending ((pairwise_entries find?).filter _) (pairwise_filterMap hs) fun entry => ?_
  rw [List.mem_filter, mem_entries, mem_filterMap, hb, and_comm]

theorem after?_eq (find? : UInt8 → Option α) (byte : UInt8) :
    after? find? byte = (entries find?).find? (byte < ·.1) := by
  have hs : (allBytes.drop (byte.toNat + 1)).Pairwise (· < ·) :=
    pairwise_allBytes.sublist (List.drop_sublist ..)
  rw [after?, search_eq_head?, ← filter_entries (byte < ·) hs (by simp [mem_drop_allBytes]),
    List.head?_filter]

theorem before?_eq (find? : UInt8 → Option α) (byte : UInt8) :
    before? find? byte = (entries find?).reverse.find? (·.1 < byte) := by
  have hs : (allBytes.take byte.toNat).Pairwise (· < ·) :=
    pairwise_allBytes.sublist (List.take_sublist ..)
  rw [before?, search_eq_head?, List.filterMap_reverse,
    ← filter_entries (· < byte) hs (by simp [mem_take_allBytes]), ← List.filter_reverse,
    List.head?_filter]

theorem find?_eq_head? {β : Type} {p : β → Bool} {l : List β} (h : ∀ x ∈ l, p x) :
    l.find? p = l.head? := by
  cases l with
  | nil => rfl
  | cons x l => rw [List.find?_cons_of_pos (h x List.mem_cons_self), List.head?_cons]

/-- The entries before and after a byte, where the searches beside it end. -/
theorem entries_split (find? : UInt8 → Option α) (byte : UInt8) :
    ∃ lo hi, entries find? = lo ++ ((find? byte).map (byte, ·)).toList ++ hi ∧
      (∀ entry ∈ lo, entry.1 < byte) ∧ (∀ entry ∈ hi, byte < entry.1) ∧
      after? find? byte = hi.head? ∧ before? find? byte = lo.getLast? := by
  obtain ⟨lo, hi, hlo, hhi, hu⟩ := entries_update find? byte
  have he := hu (find? byte)
  rw [Function.update_eq_self] at he
  have hmid : ∀ entry ∈ ((find? byte).map (byte, ·)).toList, entry.1 = byte := by
    intro entry hm
    rw [Option.mem_toList, Option.map_eq_some_iff] at hm
    obtain ⟨child, -, rfl⟩ := hm
    rfl
  refine ⟨lo, hi, he, hlo, hhi, ?_, ?_⟩
  · rw [after?_eq, he, List.find?_append, List.find?_eq_none.2, Option.none_or,
      find?_eq_head? (by simpa using hhi)]
    intro entry hm
    rcases List.mem_append.1 hm with hm | hm
    · simpa using UInt8.le_of_lt (hlo entry hm)
    · simp [hmid entry hm]
  · rw [before?_eq, he, List.append_assoc, List.reverse_append, List.find?_append,
      List.find?_eq_none.2, Option.none_or, find?_eq_head? (by simpa using hlo), List.head?_reverse]
    intro entry hm
    rcases List.mem_append.1 (List.mem_reverse.1 hm) with hm | hm
    · simp [hmid entry hm]
    · simpa using UInt8.le_of_lt (hhi entry hm)

end AdaptiveRadix.Probe
