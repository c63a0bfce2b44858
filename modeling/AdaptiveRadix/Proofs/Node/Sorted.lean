/-
Two columns kept in order. Columns that are valid hold an ascending list of entries; a byte
cuts that list in two, and every operation is said by what it puts or leaves between the
two parts.
-/
import AdaptiveRadix.Proofs.Node.Probe

namespace AdaptiveRadix.SortedSlots

variable {α : Type} {run : SortedSlots α} {capacity : Nat} {l lo hi : List (UInt8 × α)}
  {byte : UInt8} {child : α}

/-- The bytes in use ascend, and a child stands beside each of them and nowhere else. -/
structure Valid (capacity : Nat) (run : SortedSlots α) : Prop where
  keys_length : run.keys.length = capacity
  slots_length : run.slots.length = capacity
  count_le : run.count ≤ capacity
  ascending : run.bytes.Pairwise (· < ·)
  taken : ∀ slot ∈ run.slots.take run.count, slot.isSome
  free : ∀ slot ∈ run.slots.drop run.count, slot = none

/-- The columns hold the entries of a list, and no child past them. -/
structure Holds (run : SortedSlots α) (capacity : Nat) (l : List (UInt8 × α)) : Prop where
  ascending : l.Pairwise (·.1 < ·.1)
  count_eq : run.count = l.length
  keys_eq : ∃ rest, run.keys = l.map Prod.fst ++ rest ∧ l.length + rest.length = capacity
  slots_eq : run.slots = l.map (some ∘ Prod.snd) ++ List.replicate (capacity - l.length) none

theorem Holds.length_le (h : run.Holds capacity l) : l.length ≤ capacity := by
  obtain ⟨_, _, hl⟩ := h.keys_eq
  omega

theorem Holds.bytes_eq (h : run.Holds capacity l) : run.bytes = l.map Prod.fst := by
  obtain ⟨rest, hk, -⟩ := h.keys_eq
  rw [bytes, h.count_eq, hk, ← List.length_map (f := Prod.fst), List.take_left]

theorem Holds.take_slots (h : run.Holds capacity l) :
    run.slots.take run.count = l.map (some ∘ Prod.snd) := by
  rw [h.count_eq, h.slots_eq, ← List.length_map (f := some ∘ Prod.snd), List.take_left]

theorem Holds.entries_eq (h : run.Holds capacity l) : run.entries = l := by
  rw [entries, h.bytes_eq, h.take_slots, List.zip_map', List.filterMap_map]
  exact List.filterMap_some

theorem Holds.valid (h : run.Holds capacity l) : run.Valid capacity where
  keys_length := by
    obtain ⟨rest, hk, hl⟩ := h.keys_eq
    rw [hk, List.length_append, List.length_map, hl]
  slots_length := by
    have := h.length_le
    rw [h.slots_eq, List.length_append, List.length_map, List.length_replicate]
    omega
  count_le := h.count_eq ▸ h.length_le
  ascending := by
    rw [h.bytes_eq, List.pairwise_map]
    exact h.ascending
  taken := by
    rw [h.take_slots]
    intro slot hs
    obtain ⟨_, _, rfl⟩ := List.mem_map.1 hs
    rfl
  free := by
    rw [h.count_eq, h.slots_eq, ← List.length_map (f := some ∘ Prod.snd), List.drop_left]
    exact fun slot hs => List.eq_of_mem_replicate hs

theorem exists_eq_map_some {slots : List (Option α)} (h : ∀ slot ∈ slots, slot.isSome) :
    ∃ children : List α, slots = children.map some := by
  induction slots with
  | nil => exact ⟨[], rfl⟩
  | cons slot slots ih =>
    obtain ⟨child, rfl⟩ := Option.isSome_iff_exists.1 (h slot List.mem_cons_self)
    obtain ⟨children, rfl⟩ := ih fun s hs => h s (List.mem_cons_of_mem _ hs)
    exact ⟨child :: children, rfl⟩

theorem Valid.exists_holds (h : run.Valid capacity) : ∃ l, run.Holds capacity l := by
  have hb : run.bytes.length = run.count := by
    have := h.count_le
    rw [bytes, List.length_take, h.keys_length]
    omega
  obtain ⟨children, hc⟩ := exists_eq_map_some h.taken
  have hlen : children.length = run.count := by
    have := congrArg List.length hc
    have := h.count_le
    rw [List.length_take, List.length_map, h.slots_length] at *
    omega
  have hfst : (run.bytes.zip children).map Prod.fst = run.bytes :=
    List.map_fst_zip (by omega)
  have hsnd : (run.bytes.zip children).map (some ∘ Prod.snd) = run.slots.take run.count := by
    rw [hc, ← List.map_map, List.map_snd_zip (by omega)]
  have hzip : (run.bytes.zip children).length = run.count := by
    rw [List.length_zip, hb, hlen, Nat.min_self]
  have hfree : run.slots.drop run.count = List.replicate (capacity - run.count) none :=
    List.eq_replicate_iff.2 ⟨by rw [List.length_drop, h.slots_length], h.free⟩
  refine ⟨run.bytes.zip children, ?_, hzip.symm, ⟨run.keys.drop run.count, ?_, ?_⟩, ?_⟩
  · have := h.ascending
    rwa [← hfst, List.pairwise_map] at this
  · rw [hfst, bytes, List.take_append_drop]
  · have := h.count_le
    rw [hzip, List.length_drop, h.keys_length]
    omega
  · rw [hsnd, hzip, ← hfree, List.take_append_drop]

theorem Valid.holds (h : run.Valid capacity) : run.Holds capacity run.entries := by
  obtain ⟨l, hl⟩ := h.exists_holds
  rwa [hl.entries_eq]

/-! ## Where a byte stands -/

theorem exists_cut (h : l.Pairwise (·.1 < ·.1)) (byte : UInt8) :
    ∃ lo hi, (∀ e ∈ lo, e.1 < byte) ∧ (∀ e ∈ hi, byte < e.1) ∧
      (l = lo ++ hi ∨ ∃ child, l = lo ++ (byte, child) :: hi) := by
  induction l with
  | nil => exact ⟨[], [], by simp, by simp, .inl rfl⟩
  | cons e l ih =>
    obtain ⟨he, hs⟩ := List.pairwise_cons.1 h
    obtain ⟨lo, hi, hlo, hhi, hl⟩ := ih hs
    by_cases hlt : e.1 < byte
    · refine ⟨e :: lo, hi, List.forall_mem_cons.2 ⟨hlt, hlo⟩, hhi, ?_⟩
      rcases hl with rfl | ⟨child, rfl⟩
      · exact .inl rfl
      · exact .inr ⟨child, rfl⟩
    by_cases heq : e.1 = byte
    · exact ⟨[], l, by simp, heq ▸ he, .inr ⟨e.2, by rw [← heq]; rfl⟩⟩
    · have hgt : byte < e.1 := by grind
      refine ⟨[], e :: l, by simp, List.forall_mem_cons.2 ⟨hgt, fun x hx => ?_⟩, .inl rfl⟩
      exact UInt8.lt_trans hgt (he x hx)

/-- The entries under smaller bytes lie in the places before a byte's rank, and a byte in use lies at
its rank. -/
theorem Holds.exists_cut (h : run.Holds capacity l) (byte : UInt8) :
    ∃ lo hi, (∀ e ∈ lo, e.1 < byte) ∧ (∀ e ∈ hi, byte < e.1) ∧ run.rank byte = lo.length ∧
      ((l = lo ++ hi ∧ run.position? byte = none) ∨
        ∃ child, l = lo ++ (byte, child) :: hi ∧ run.position? byte = some lo.length) := by
  obtain ⟨lo, hi, hlo, hhi, hl⟩ := SortedSlots.exists_cut h.ascending byte
  have hbefore : (lo.map Prod.fst).findIdx (byte ≤ ·) = (lo.map Prod.fst).length := by
    refine List.findIdx_eq_length.2 fun b hb => ?_
    obtain ⟨e, he, rfl⟩ := List.mem_map.1 hb
    have := hlo e he
    simp only [decide_eq_false_iff_not]
    grind
  have hrank : run.rank byte = lo.length := by
    rcases hl with rfl | ⟨child, rfl⟩
    · rw [rank, h.bytes_eq, List.map_append, List.findIdx_append, hbefore]
      cases hi with
      | nil => simp
      | cons e hi =>
        have := hhi e List.mem_cons_self
        have : byte ≤ e.1 := by grind
        simp [List.findIdx_cons, this]
    · rw [rank, h.bytes_eq, List.map_append, List.findIdx_append, hbefore]
      simp [List.findIdx_cons]
  refine ⟨lo, hi, hlo, hhi, hrank, ?_⟩
  rcases hl with rfl | ⟨child, rfl⟩
  · refine .inl ⟨rfl, ?_⟩
    rw [position?, hrank, h.bytes_eq, List.map_append, List.getElem?_append_right (by simp)]
    cases hi with
    | nil => simp
    | cons e hi =>
      have := hhi e List.mem_cons_self
      have hne : e.1 ≠ byte := by grind
      simp [hne]
  · refine .inr ⟨child, rfl, ?_⟩
    rw [position?, hrank, h.bytes_eq, List.map_append, List.getElem?_append_right (by simp)]
    simp

/-! ## Children by byte -/

theorem getElem?_slots_cut (h : run.Holds capacity (lo ++ (byte, child) :: hi)) :
    run.slots[lo.length]?.join = some child := by
  rw [h.slots_eq, List.map_append, List.append_assoc,
    List.getElem?_append_right (by rw [List.length_map])]
  simp

theorem Holds.find?_eq_some_iff (h : run.Holds capacity l) :
    run.find? byte = some child ↔ (byte, child) ∈ l := by
  obtain ⟨lo, hi, hlo, hhi, -, hl⟩ := h.exists_cut byte
  have hlo' : (byte, child) ∉ lo := fun hm => UInt8.lt_irrefl _ (hlo _ hm)
  have hhi' : (byte, child) ∉ hi := fun hm => UInt8.lt_irrefl _ (hhi _ hm)
  rcases hl with ⟨rfl, hp⟩ | ⟨old, rfl, hp⟩
  · simp [find?, hp, hlo', hhi']
  · rw [find?, hp, Option.bind_some, getElem?_slots_cut h]
    simp [hlo', hhi', eq_comm]

theorem Holds.find?_eq_none (h : run.Holds capacity (lo ++ hi)) (hlo : ∀ e ∈ lo, e.1 < byte)
    (hhi : ∀ e ∈ hi, byte < e.1) : run.find? byte = none := by
  refine Option.eq_none_iff_forall_ne_some.2 fun child hc => ?_
  rw [h.find?_eq_some_iff, List.mem_append] at hc
  rcases hc with hc | hc
  · exact UInt8.lt_irrefl _ (hlo _ hc)
  · exact UInt8.lt_irrefl _ (hhi _ hc)

/-- Columns that differ in what they hold under one byte find the same under every other. -/
theorem Holds.find?_eq_update {run' : SortedSlots α} (slot : Option α)
    (h : run.Holds capacity (lo ++ l ++ hi)) (hlo : ∀ e ∈ lo, e.1 < byte)
    (hhi : ∀ e ∈ hi, byte < e.1) (hl : ∀ e ∈ l, e.1 = byte)
    (h' : run'.Holds capacity (lo ++ (slot.map (byte, ·)).toList ++ hi)) :
    run'.find? = Function.update run.find? byte slot := by
  funext b
  refine Option.ext fun c => ?_
  rw [h'.find?_eq_some_iff]
  by_cases hb : b = byte
  · subst hb
    have hlo' : (b, c) ∉ lo := fun hm => UInt8.lt_irrefl _ (hlo _ hm)
    have hhi' : (b, c) ∉ hi := fun hm => UInt8.lt_irrefl _ (hhi _ hm)
    simp [hlo', hhi']
  · have hl' : (b, c) ∉ l := fun hm => hb (hl _ hm)
    have hslot : (b, c) ∉ (slot.map (byte, ·)).toList := by
      cases slot <;> simp [hb]
    rw [Function.update_of_ne hb, h.find?_eq_some_iff]
    simp only [List.mem_append, hl', hslot]

theorem ascending_put (h : (lo ++ hi).Pairwise (·.1 < ·.1)) (hlo : ∀ e ∈ lo, e.1 < byte)
    (hhi : ∀ e ∈ hi, byte < e.1) (child : α) : (lo ++ (byte, child) :: hi).Pairwise (·.1 < ·.1) := by
  obtain ⟨hl, hh, hlh⟩ := List.pairwise_append.1 h
  refine List.pairwise_append.2 ⟨hl, List.pairwise_cons.2 ⟨hhi, hh⟩, fun a ha b hb => ?_⟩
  rcases List.mem_cons.1 hb with rfl | hb
  · exact hlo a ha
  · exact hlh a ha b hb

theorem shiftIn_append {β : Type} (as bs rest : List β) (x y : β) :
    shiftIn as.length (as ++ bs).length x (as ++ bs ++ y :: rest) = as ++ x :: bs ++ rest := by
  have hlen : (as ++ bs).length - as.length = bs.length := by
    rw [List.length_append, Nat.add_sub_cancel_left]
  have hdrop : (as ++ bs ++ y :: rest).drop ((as ++ bs).length + 1) = rest := by
    rw [← List.drop_drop, List.drop_left]
    rfl
  rw [shiftIn, hlen, hdrop, List.append_assoc as, List.take_left, List.drop_left, List.take_left,
    List.append_assoc]

theorem shiftOut_append {β : Type} (as bs rest : List β) (x y : β) :
    shiftOut as.length (as ++ y :: bs).length x (as ++ y :: bs ++ rest) =
      as ++ bs ++ x :: rest := by
  have hlen : (as ++ y :: bs).length - (as.length + 1) = bs.length := by
    simp only [List.length_append, List.length_cons]
    omega
  have hdrop : (as ++ y :: bs ++ rest).drop (as.length + 1) = bs ++ rest := by
    rw [← List.drop_drop, List.append_assoc, List.drop_left]
    rfl
  rw [shiftOut, hlen, hdrop, List.take_left, List.drop_left, List.append_assoc as, List.take_left]

theorem set_append_cons {β : Type} (as bs : List β) (x y : β) :
    (as ++ y :: bs).set as.length x = as ++ x :: bs := by
  simp

/-- The columns after a child was put between the entries under smaller and under greater bytes. -/
theorem Holds.insert (h : run.Holds capacity (lo ++ hi)) (hlo : ∀ e ∈ lo, e.1 < byte)
    (hhi : ∀ e ∈ hi, byte < e.1) (hroom : (lo ++ hi).length < capacity) (child : α) :
    Holds ⟨run.count + 1, shiftIn lo.length run.count byte run.keys,
      shiftIn lo.length run.count (some child) run.slots⟩ capacity (lo ++ (byte, child) :: hi) := by
  obtain ⟨rest, hk, hl⟩ := h.keys_eq
  obtain ⟨junk, rest, rfl⟩ : ∃ junk rest', rest = junk :: rest' :=
    List.exists_cons_of_length_pos (by omega)
  obtain ⟨n, hn⟩ : ∃ n, capacity - (lo ++ hi).length = n + 1 := ⟨_, (Nat.succ_pred (by omega)).symm⟩
  refine ⟨ascending_put h.ascending hlo hhi child, ?_, ⟨rest, ?_, ?_⟩, ?_⟩
  · simp [h.count_eq, Nat.add_assoc]
  · have := shiftIn_append (lo.map Prod.fst) (hi.map Prod.fst) rest byte junk
    simp only [List.length_append, List.length_map] at this
    simp only [h.count_eq, hk, List.length_append, List.map_append, List.map_cons]
    exact this
  · simp only [List.length_append, List.length_cons] at hl ⊢
    omega
  · have := shiftIn_append (lo.map (some ∘ Prod.snd)) (hi.map (some ∘ Prod.snd))
      (List.replicate n none) (some child) none
    simp only [List.length_append, List.length_map] at this
    have hn' : capacity - (lo ++ (byte, child) :: hi).length = n := by
      simp only [List.length_append, List.length_cons] at hn ⊢
      omega
    rw [hn', h.count_eq, h.slots_eq, hn, List.replicate_succ]
    simp only [List.length_append, List.map_append, List.map_cons, Function.comp_apply]
    exact this

/-- The columns after another child took the place of the one under a byte. -/
theorem Holds.set {old : α} (h : run.Holds capacity (lo ++ (byte, old) :: hi)) (child : α) :
    Holds { run with slots := run.slots.set lo.length (some child) } capacity
      (lo ++ (byte, child) :: hi) := by
  obtain ⟨rest, hk, hl⟩ := h.keys_eq
  refine ⟨?_, ?_, ⟨rest, ?_, ?_⟩, ?_⟩
  · have := h.ascending
    simp only [List.pairwise_append, List.pairwise_cons, List.mem_cons, forall_eq_or_imp] at this ⊢
    exact this
  · simp [h.count_eq]
  · simp [hk]
  · simpa using hl
  · have := set_append_cons (lo.map (some ∘ Prod.snd)) (hi.map (some ∘ Prod.snd) ++
      List.replicate (capacity - (lo ++ (byte, old) :: hi).length) none) (some child) (some old)
    simp only [List.length_append, List.length_cons, List.length_map] at this
    simp only [h.slots_eq, List.length_append, List.length_cons, List.map_append, List.map_cons,
      Function.comp_apply, List.append_assoc, List.cons_append]
    exact this

/-- The columns after the child under a byte was taken out. -/
theorem Holds.remove {old : α} (h : run.Holds capacity (lo ++ (byte, old) :: hi)) (junk : UInt8) :
    Holds ⟨run.count - 1, shiftOut lo.length run.count junk run.keys,
      shiftOut lo.length run.count none run.slots⟩ capacity (lo ++ hi) := by
  obtain ⟨rest, hk, hl⟩ := h.keys_eq
  refine ⟨?_, ?_, ⟨junk :: rest, ?_, ?_⟩, ?_⟩
  · exact h.ascending.sublist ((List.sublist_cons_self _ hi).append_left lo)
  · simp [h.count_eq]
  · have := shiftOut_append (lo.map Prod.fst) (hi.map Prod.fst) rest junk byte
    simp only [List.length_append, List.length_cons, List.length_map] at this
    simp only [h.count_eq, hk, List.length_append, List.length_cons, List.map_append, List.map_cons]
    exact this
  · simp only [List.length_append, List.length_cons] at hl ⊢
    omega
  · have hcap : capacity - (lo ++ hi).length =
        capacity - (lo ++ (byte, old) :: hi).length + 1 := by
      simp only [List.length_append, List.length_cons] at hl ⊢
      omega
    have := shiftOut_append (lo.map (some ∘ Prod.snd)) (hi.map (some ∘ Prod.snd))
      (List.replicate (capacity - (lo ++ (byte, old) :: hi).length) none) none (some old)
    simp only [List.length_append, List.length_cons, List.length_map] at this
    rw [hcap, List.replicate_succ, h.count_eq, h.slots_eq]
    simp only [List.length_append, List.length_cons, List.map_append, List.map_cons,
      Function.comp_apply]
    exact this

/-! ## Operations on valid columns -/

theorem Valid.count_eq (h : run.Valid capacity) : run.count = run.entries.length :=
  h.holds.count_eq

theorem Valid.mem_entries (h : run.Valid capacity) {entry : UInt8 × α} :
    entry ∈ run.entries ↔ run.find? entry.1 = some entry.2 :=
  h.holds.find?_eq_some_iff.symm

theorem Valid.capacity_eq (h : run.Valid capacity) : run.capacity = capacity :=
  h.keys_length

theorem Valid.insert? (h : run.Valid capacity)
    (hroom : (run.find? byte).isSome ∨ run.count < capacity) (child : α) :
    ∃ run', run.insert? byte child = some run' ∧ run'.Valid capacity ∧
      run'.find? = Function.update run.find? byte (some child) := by
  have hl := h.holds
  obtain ⟨lo, hi, hlo, hhi, hrank, hcut⟩ := hl.exists_cut byte
  rcases hcut with ⟨he, hp⟩ | ⟨old, he, hp⟩ <;> rw [he] at hl
  · have hlt : run.count < capacity := by
      rw [hl.find?_eq_none hlo hhi] at hroom
      simpa using hroom
    have hne : run.count ≠ run.capacity := h.capacity_eq ▸ Nat.ne_of_lt hlt
    have hnew := hl.insert hlo hhi (hl.count_eq ▸ hlt) child
    refine ⟨_, ?_, hnew.valid, ?_⟩
    · rw [SortedSlots.insert?, hp, hrank]
      exact if_neg hne
    · exact Holds.find?_eq_update (l := []) (some child) (by simpa using hl) hlo hhi
        (by simp) (by simpa using hnew)
  · have hnew := hl.set child
    refine ⟨_, by rw [SortedSlots.insert?, hp], hnew.valid, ?_⟩
    exact Holds.find?_eq_update (l := [(byte, old)]) (some child) (by simpa using hl) hlo hhi
      (by simp) (by simpa using hnew)

theorem Valid.insert?_eq_none (h : run.Valid capacity) (hnew : run.find? byte = none)
    (hfull : run.count = capacity) (child : α) : run.insert? byte child = none := by
  have hl := h.holds
  obtain ⟨lo, hi, hlo, hhi, hrank, ⟨he, hp⟩ | ⟨old, he, hp⟩⟩ := hl.exists_cut byte
  · rw [SortedSlots.insert?, hp]
    exact if_pos (hfull.trans h.capacity_eq.symm)
  · rw [he] at hl
    rw [find?, hp, Option.bind_some, getElem?_slots_cut hl] at hnew
    simp at hnew

theorem Valid.replace (h : run.Valid capacity) (hold : (run.find? byte).isSome) (child : α) :
    (run.replace byte child).Valid capacity ∧
      (run.replace byte child).find? = Function.update run.find? byte (some child) := by
  have hl := h.holds
  obtain ⟨lo, hi, hlo, hhi, hrank, hcut⟩ := hl.exists_cut byte
  rcases hcut with ⟨he, hp⟩ | ⟨old, he, hp⟩ <;> rw [he] at hl
  · simp [hl.find?_eq_none hlo hhi] at hold
  · have hnew := hl.set child
    rw [SortedSlots.replace, hp]
    exact ⟨hnew.valid, Holds.find?_eq_update (l := [(byte, old)]) (some child)
      (by simpa using hl) hlo hhi (by simp) (by simpa using hnew)⟩

theorem Valid.remove (h : run.Valid capacity) (byte : UInt8) :
    (run.remove byte).1 = run.find? byte ∧ (run.remove byte).2.Valid capacity ∧
      (run.remove byte).2.find? = Function.update run.find? byte none := by
  have hl := h.holds
  obtain ⟨lo, hi, hlo, hhi, hrank, hcut⟩ := hl.exists_cut byte
  rcases hcut with ⟨he, hp⟩ | ⟨old, he, hp⟩ <;> rw [he] at hl
  · have hnone := hl.find?_eq_none hlo hhi
    rw [SortedSlots.remove, hp]
    exact ⟨hnone.symm, h, by rw [← hnone, Function.update_eq_self]⟩
  · have hnew := hl.remove (run.keys.getD (run.count - 1) 0)
    rw [SortedSlots.remove, hp]
    refine ⟨by simp only [find?, hp, Option.bind_some], hnew.valid, ?_⟩
    exact Holds.find?_eq_update (l := [(byte, old)]) none (by simpa using hl) hlo hhi
      (by simp) (by simpa using hnew)

theorem holds_ofEntries (hs : l.Pairwise (·.1 < ·.1)) (hlen : l.length ≤ capacity) :
    (ofEntries capacity l).Holds capacity l where
  ascending := hs
  count_eq := rfl
  keys_eq := ⟨_, rfl, by simp; omega⟩
  slots_eq := rfl

/-- Putting the child under a byte in its own place changes nothing. -/
theorem replace_self (h : run.find? byte = some child) : run.replace byte child = run := by
  rw [SortedSlots.replace]
  split
  · next i hi =>
    rw [find?, hi, Option.bind_some, Option.join_eq_some_iff] at h
    obtain ⟨hlt, hget⟩ := List.getElem?_eq_some_iff.1 h
    rw [← hget, List.set_getElem_self]
  · rfl

/-! ## Children in order -/

theorem Holds.entryAt? (h : run.Holds capacity l) (i : Nat) : run.entryAt? i = l[i]? := by
  obtain ⟨rest, hk, -⟩ := h.keys_eq
  by_cases hi : i < l.length
  · have hkey : run.keys[i]? = some l[i].1 := by
      rw [hk, List.getElem?_append_left (by simpa using hi)]
      simp [hi]
    have hslot : run.slots[i]?.join = some l[i].2 := by
      rw [h.slots_eq, List.getElem?_append_left (by simpa using hi)]
      simp [hi]
    simp [SortedSlots.entryAt?, hkey, hslot, hi]
  · have hslot : run.slots[i]?.join = none := by
      rw [h.slots_eq, List.getElem?_append_right (by simpa using hi), List.getElem?_replicate]
      split <;> rfl
    have hl : l[i]? = none := List.getElem?_eq_none (Nat.le_of_not_lt hi)
    simp [SortedSlots.entryAt?, hslot, hl]

theorem Valid.first?_eq (h : run.Valid capacity) : run.first? = run.entries.head? := by
  rw [first?, h.holds.entryAt?, h.count_eq, List.head?_eq_getElem?]
  split
  · rfl
  · next hz => rw [List.getElem?_eq_none (by omega)]

theorem Valid.last?_eq (h : run.Valid capacity) : run.last? = run.entries.getLast? := by
  rw [last?, h.holds.entryAt?, h.count_eq, List.getLast?_eq_getElem?]
  split
  · rfl
  · next hz => rw [List.getElem?_eq_none (by omega)]

theorem Valid.after?_eq (h : run.Valid capacity) (byte : UInt8) :
    run.after? byte = run.entries.find? (byte < ·.1) := by
  rw [after?, h.holds.bytes_eq, List.findIdx?_map, List.find?_eq_bind_findIdx?_getElem?]
  exact congrArg _ (funext h.holds.entryAt?)

theorem Valid.before?_eq (h : run.Valid capacity) (byte : UInt8) :
    run.before? byte = run.entries.reverse.find? (·.1 < byte) := by
  rw [before?, h.holds.bytes_eq, ← List.map_reverse, List.findIdx?_map,
    List.find?_eq_bind_findIdx?_getElem?]
  refine Option.bind_congr fun i hi => ?_
  obtain ⟨hlt, -⟩ := List.findIdx?_eq_some_iff_getElem.1 hi
  rw [h.holds.entryAt?, List.length_map, List.getElem?_reverse (by simpa using hlt)]

end AdaptiveRadix.SortedSlots
