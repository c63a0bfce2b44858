/-
A table from bytes to slots. Bytes with a child and slots with a child correspond one to one,
so a slot is free as long as not every slot has its byte, and a slot that is filled or freed
is seen under its own byte only.
-/
import AdaptiveRadix.Proofs.Node.Probe

namespace AdaptiveRadix.IndexedSlots

variable {α : Type} {table : IndexedSlots α} {byte : UInt8} {child : α}

def childAt? (table : IndexedSlots α) (i : Fin 48) : Option α :=
  table.slots[i.val]?.join

/-- The slots in use, in the order of their bytes. -/
def used (table : IndexedSlots α) : List (Fin 48) :=
  Probe.allBytes.filterMap table.slotOf?

/-- The bytes of the table correspond one to one to the slots that hold a child, and the count is their
number. -/
structure Valid (table : IndexedSlots α) : Prop where
  slots_size : table.slots.size = 48
  taken : ∀ byte i, table.slotOf? byte = some i → (table.childAt? i).isSome
  injective : ∀ a b i, table.slotOf? a = some i → table.slotOf? b = some i → a = b
  covered : ∀ i, (table.childAt? i).isSome → ∃ byte, table.slotOf? byte = some i
  count_eq : table.count = (Probe.entries table.find?).length

theorem find?_eq_bind (table : IndexedSlots α) (byte : UInt8) :
    table.find? byte = (table.slotOf? byte).bind table.childAt? := rfl

theorem Valid.find?_eq_none_iff (h : table.Valid) :
    table.find? byte = none ↔ table.slotOf? byte = none := by
  rw [find?_eq_bind]
  cases hs : table.slotOf? byte with
  | none => simp
  | some i =>
    have := h.taken byte i hs
    rw [Option.bind_some]
    cases hc : table.childAt? i <;> simp_all

theorem Valid.isSome_find? (h : table.Valid) {i : Fin 48} (hb : table.slotOf? byte = some i) :
    (table.find? byte).isSome := by
  rw [find?_eq_bind, hb]
  exact h.taken byte i hb

/-! ## Slots in use -/

theorem mem_used {i : Fin 48} : i ∈ table.used ↔ ∃ byte, table.slotOf? byte = some i := by
  simp [used, Probe.mem_allBytes]

theorem Valid.nodup_used (h : table.Valid) : table.used.Nodup := by
  refine List.Pairwise.filterMap _ (fun a b hab i hi j hj => ?_) Probe.pairwise_allBytes
  rintro rfl
  exact UInt8.lt_irrefl b (h.injective a b i hi hj ▸ hab)

theorem Valid.length_used (h : table.Valid) : table.used.length = table.count := by
  rw [h.count_eq, used, Probe.entries, List.length_filterMap_eq_countP,
    List.length_filterMap_eq_countP]
  refine List.countP_congr fun byte _ => ?_
  have : table.find? byte = none ↔ _ := h.find?_eq_none_iff
  cases hs : table.slotOf? byte <;> cases hf : table.find? byte <;> simp_all

theorem Valid.count_le (h : table.Valid) : table.count ≤ 48 := by
  have := h.nodup_used.length_le_card
  rwa [h.length_used, Fintype.card_fin] at this

/-- As long as fewer slots are used than there are, some slot holds no child. -/
theorem Valid.exists_free_iff (h : table.Valid) :
    (∃ i, table.childAt? i = none) ↔ table.count < 48 := by
  have hcard : table.used.toFinset.card = table.count := by
    rw [List.toFinset_card_of_nodup h.nodup_used, h.length_used]
  constructor
  · rintro ⟨i, hi⟩
    have hnot : i ∉ table.used.toFinset := by
      intro hm
      obtain ⟨byte, hb⟩ := mem_used.1 (List.mem_toFinset.1 hm)
      simpa [hi] using h.taken byte i hb
    have := Finset.card_lt_univ_of_notMem hnot
    rwa [hcard, Fintype.card_fin] at this
  · intro hlt
    obtain ⟨i, hi⟩ : ∃ i, i ∉ table.used.toFinset := by
      by_contra hall
      push Not at hall
      rw [Finset.eq_univ_of_forall hall, Finset.card_fin] at hcard
      omega
    refine ⟨i, Option.eq_none_iff_forall_ne_some.2 fun c hc => hi ?_⟩
    exact List.mem_toFinset.2 (mem_used.2 (h.covered i (by simp [hc])))

theorem childAt?_eq_none_of_freeSlot? (h : table.slots.size = 48) {i : Fin 48}
    (hi : table.freeSlot? = some i) : table.childAt? i = none := by
  obtain ⟨j, hj, hd⟩ := Option.bind_eq_some_iff.1 hi
  obtain ⟨hlt, hnone, -⟩ := Array.findIdx?_eq_some_iff_getElem.1 hj
  have hji : j = i.val := by
    rw [dif_pos (h ▸ hlt)] at hd
    exact congrArg Fin.val (Option.some.inj hd)
  subst hji
  rw [childAt?, Array.getElem?_eq_getElem hlt, Option.isNone_iff_eq_none.1 hnone]
  rfl

theorem isSome_freeSlot? (h : table.slots.size = 48) {i : Fin 48} (hi : table.childAt? i = none) :
    table.freeSlot?.isSome := by
  have hlt : i.val < table.slots.size := by omega
  have hnone : table.slots[i.val] = none := by
    rwa [childAt?, Array.getElem?_eq_getElem hlt] at hi
  cases hf : table.slots.findIdx? Option.isNone with
  | none =>
    have := Array.findIdx?_eq_none_iff.1 hf _ (Array.getElem_mem hlt)
    simp [hnone] at this
  | some j =>
    obtain ⟨hj, -⟩ := Array.findIdx?_eq_some_iff_getElem.1 hf
    simp [freeSlot?, hf, h ▸ hj]

/-! ## One change of the table -/

theorem slotOf?_set (table : IndexedSlots α) (count : Nat) (slots : Array (Option α))
    (byte : UInt8) (i : Option (Fin 48)) :
    slotOf? ⟨count, table.index.set byte.toFin i, slots⟩ = Function.update table.slotOf? byte i := by
  funext b
  by_cases hb : b = byte
  · subst hb
    simp [slotOf?]
  · have hne : byte.toNat ≠ b.toNat := fun he => hb (UInt8.toNat_inj.1 he.symm)
    rw [Function.update_of_ne hb]
    simp [slotOf?, Vector.getElem_set_ne, hne]

theorem childAt?_set (h : table.slots.size = 48) (count : Nat)
    (index : Vector (Option (Fin 48)) 256) (i : Fin 48) (slot : Option α) :
    childAt? ⟨count, index, table.slots.setIfInBounds i slot⟩ =
      Function.update table.childAt? i slot := by
  funext j
  by_cases hj : j = i
  · subst hj
    rw [childAt?, Array.getElem?_setIfInBounds_self_of_lt (by omega), Function.update_self]
    rfl
  · have hne : i.val ≠ j.val := fun he => hj (Fin.ext he.symm)
    rw [childAt?, Array.getElem?_setIfInBounds_ne hne, Function.update_of_ne hj]
    rfl

/-- A byte and a slot belong together, or both are free. -/
def Meet (table : IndexedSlots α) (byte : UInt8) (i : Fin 48) : Prop :=
  ∀ b j, table.slotOf? b = some j → (b = byte ↔ j = i)

theorem Valid.meet_of_slot (h : table.Valid) {i : Fin 48} (hb : table.slotOf? byte = some i) :
    table.Meet byte i := by
  intro b j hj
  constructor
  · intro hbb
    rw [hbb, hb] at hj
    exact (Option.some.inj hj).symm
  · intro hji
    exact h.injective b byte i (hji ▸ hj) hb

theorem Valid.meet_of_free (h : table.Valid) {i : Fin 48} (hb : table.slotOf? byte = none)
    (hi : table.childAt? i = none) : table.Meet byte i := by
  intro b j hj
  constructor
  · intro hbb
    rw [hbb, hb] at hj
    cases hj
  · intro hji
    have htaken := h.taken b j hj
    rw [hji, hi] at htaken
    cases htaken

/-- In another table a byte and a slot have got a child, or lost the one they had. -/
structure Puts (table table' : IndexedSlots α) (byte : UInt8) (i : Fin 48) (slot : Option α) :
    Prop where
  slots_size : table'.slots.size = 48
  slots : table'.slotOf? = Function.update table.slotOf? byte (slot.map fun _ => i)
  children : table'.childAt? = Function.update table.childAt? i slot

namespace Puts

variable {table' : IndexedSlots α} {i : Fin 48} {slot : Option α}

theorem find?_eq (h : table.Puts table' byte i slot) (hmeet : table.Meet byte i) :
    table'.find? = Function.update table.find? byte slot := by
  funext b
  rw [find?_eq_bind, h.slots, h.children]
  by_cases hbb : b = byte
  · cases slot <;> simp [hbb]
  · rw [Function.update_of_ne hbb, Function.update_of_ne hbb, find?_eq_bind]
    cases hs : table.slotOf? b with
    | none => rfl
    | some j =>
      have hji : j ≠ i := fun hji => hbb ((hmeet b j hs).2 hji)
      rw [Option.bind_some, Option.bind_some, Function.update_of_ne hji]

theorem slotOf?_eq_some_iff (h : table.Puts table' byte i slot) (hmeet : table.Meet byte i)
    {b : UInt8} {j : Fin 48} :
    table'.slotOf? b = some j ↔
      b = byte ∧ j = i ∧ slot.isSome ∨ b ≠ byte ∧ j ≠ i ∧ table.slotOf? b = some j := by
  rw [h.slots]
  by_cases hbb : b = byte
  · cases slot <;> simp [hbb, eq_comm]
  · rw [Function.update_of_ne hbb]
    simp only [hbb, false_and, false_or, ne_eq, not_false_eq_true, true_and]
    refine (and_iff_right_of_imp fun hj hji => ?_).symm
    exact hbb ((hmeet b j hj).2 hji)

theorem valid (h : table.Puts table' byte i slot) (hvalid : table.Valid)
    (hmeet : table.Meet byte i)
    (hcount : table'.count = (Probe.entries (Function.update table.find? byte slot)).length) :
    table'.Valid := by
  refine ⟨h.slots_size, ?_, ?_, ?_, ?_⟩
  · intro b j hj
    rw [h.children]
    rcases (h.slotOf?_eq_some_iff hmeet).1 hj with ⟨-, hji, hslot⟩ | ⟨-, hji, hj⟩
    · rwa [hji, Function.update_self]
    · rw [Function.update_of_ne hji]
      exact hvalid.taken b j hj
  · intro a b j ha hb
    rcases (h.slotOf?_eq_some_iff hmeet).1 ha with ⟨haa, hji, -⟩ | ⟨-, hji, ha⟩
    · rcases (h.slotOf?_eq_some_iff hmeet).1 hb with ⟨hbb, -⟩ | ⟨-, hne, -⟩
      · rw [haa, hbb]
      · exact absurd hji hne
    · rcases (h.slotOf?_eq_some_iff hmeet).1 hb with ⟨-, heq, -⟩ | ⟨-, -, hb⟩
      · exact absurd heq hji
      · exact hvalid.injective a b j ha hb
  · intro j hj
    rw [h.children] at hj
    by_cases hji : j = i
    · rw [hji, Function.update_self] at hj
      exact ⟨byte, (h.slotOf?_eq_some_iff hmeet).2 (.inl ⟨rfl, hji, hj⟩)⟩
    · rw [Function.update_of_ne hji] at hj
      obtain ⟨b, hb⟩ := hvalid.covered j hj
      have hbb : b ≠ byte := fun hbb => hji ((hmeet b j hb).1 hbb)
      exact ⟨b, (h.slotOf?_eq_some_iff hmeet).2 (.inr ⟨hbb, hji, hb⟩)⟩
  · rw [h.find?_eq hmeet]
    exact hcount

end Puts

/-- A child put into a free slot, and the slot given to a byte without one. -/
theorem Valid.fill (h : table.Valid) {i : Fin 48} (hb : table.slotOf? byte = none)
    (hi : table.childAt? i = none) (child : α) :
    Valid ⟨table.count + 1, table.index.set byte.toFin (some i),
      table.slots.setIfInBounds i (some child)⟩ ∧
    find? ⟨table.count + 1, table.index.set byte.toFin (some i),
      table.slots.setIfInBounds i (some child)⟩ = Function.update table.find? byte (some child) := by
  have hmeet := h.meet_of_free hb hi
  have hputs : table.Puts ⟨table.count + 1, table.index.set byte.toFin (some i),
      table.slots.setIfInBounds i (some child)⟩ byte i (some child) :=
    ⟨by simp [h.slots_size], slotOf?_set .., childAt?_set h.slots_size ..⟩
  refine ⟨hputs.valid h hmeet ?_, hputs.find?_eq hmeet⟩
  rw [Probe.length_entries_insert (h.find?_eq_none_iff.2 hb), ← h.count_eq]

/-- Another child put into the slot of a byte. -/
theorem Valid.refill (h : table.Valid) {i : Fin 48} (hb : table.slotOf? byte = some i) (child : α) :
    Valid { table with slots := table.slots.setIfInBounds i (some child) } ∧
    find? { table with slots := table.slots.setIfInBounds i (some child) } =
      Function.update table.find? byte (some child) := by
  have hmeet := h.meet_of_slot hb
  have hputs : table.Puts { table with slots := table.slots.setIfInBounds i (some child) } byte i
      (some child) := by
    refine ⟨by simp [h.slots_size], ?_, childAt?_set h.slots_size ..⟩
    show table.slotOf? = _
    rw [Option.map_some, ← hb, Function.update_eq_self]
  refine ⟨hputs.valid h hmeet ?_, hputs.find?_eq hmeet⟩
  rw [Probe.length_entries_replace (h.isSome_find? hb)]
  exact h.count_eq

/-- A byte's slot emptied, and the slot taken from the byte. -/
theorem Valid.free (h : table.Valid) {i : Fin 48} (hb : table.slotOf? byte = some i) :
    Valid ⟨table.count - 1, table.index.set byte.toFin none, table.slots.setIfInBounds i none⟩ ∧
    find? ⟨table.count - 1, table.index.set byte.toFin none, table.slots.setIfInBounds i none⟩ =
      Function.update table.find? byte none := by
  have hmeet := h.meet_of_slot hb
  have hputs : table.Puts ⟨table.count - 1, table.index.set byte.toFin none,
      table.slots.setIfInBounds i none⟩ byte i none :=
    ⟨by simp [h.slots_size], slotOf?_set .., childAt?_set h.slots_size ..⟩
  refine ⟨hputs.valid h hmeet ?_, hputs.find?_eq hmeet⟩
  have hlength := Probe.length_entries_remove (h.isSome_find? hb)
  have hcount := h.count_eq
  show table.count - 1 = _
  omega

/-! ## Operations on a valid table -/

theorem Valid.insert? (h : table.Valid) (hroom : (table.find? byte).isSome ∨ table.count < 48)
    (child : α) :
    ∃ table', table.insert? byte child = some table' ∧ table'.Valid ∧
      table'.find? = Function.update table.find? byte (some child) := by
  cases hb : table.slotOf? byte with
  | some i =>
    obtain ⟨hv, hf⟩ := h.refill hb child
    exact ⟨_, by rw [IndexedSlots.insert?, hb], hv, hf⟩
  | none =>
    have hlt : table.count < 48 := by
      rw [h.find?_eq_none_iff.2 hb] at hroom
      simpa using hroom
    obtain ⟨j, hj⟩ := h.exists_free_iff.2 hlt
    obtain ⟨i, hi⟩ := Option.isSome_iff_exists.1 (isSome_freeSlot? h.slots_size hj)
    obtain ⟨hv, hf⟩ := h.fill hb (childAt?_eq_none_of_freeSlot? h.slots_size hi) child
    exact ⟨_, by rw [IndexedSlots.insert?, hb, hi]; rfl, hv, hf⟩

theorem Valid.insert?_eq_none (h : table.Valid) (hnew : table.find? byte = none)
    (hfull : table.count = 48) (child : α) : table.insert? byte child = none := by
  have hfree : table.freeSlot? = none := by
    refine Option.eq_none_iff_forall_ne_some.2 fun i hi => ?_
    have := h.exists_free_iff.1 ⟨i, childAt?_eq_none_of_freeSlot? h.slots_size hi⟩
    omega
  rw [IndexedSlots.insert?, h.find?_eq_none_iff.1 hnew, hfree]
  rfl

theorem Valid.replace (h : table.Valid) (hold : (table.find? byte).isSome) (child : α) :
    (table.replace byte child).Valid ∧
      (table.replace byte child).find? = Function.update table.find? byte (some child) := by
  cases hb : table.slotOf? byte with
  | some i =>
    rw [IndexedSlots.replace, hb]
    exact h.refill hb child
  | none => simp [h.find?_eq_none_iff.2 hb] at hold

theorem Valid.remove (h : table.Valid) (byte : UInt8) :
    (table.remove byte).1 = table.find? byte ∧ (table.remove byte).2.Valid ∧
      (table.remove byte).2.find? = Function.update table.find? byte none := by
  cases hb : table.slotOf? byte with
  | some i =>
    have hfree := h.free hb
    rw [IndexedSlots.remove, hb]
    exact ⟨by rw [find?_eq_bind, hb]; rfl, hfree⟩
  | none =>
    have hnone := h.find?_eq_none_iff.2 hb
    rw [IndexedSlots.remove, hb]
    exact ⟨hnone.symm, h, by rw [← hnone, Function.update_eq_self]⟩

/-- Putting the child under a byte in its own place changes nothing. -/
theorem replace_self (h : table.find? byte = some child) : table.replace byte child = table := by
  rw [replace]
  split
  · next i hi =>
    rw [find?, hi, Option.bind_some, Option.join_eq_some_iff] at h
    obtain ⟨hlt, hget⟩ := Array.getElem?_eq_some_iff.1 h
    simp [Array.setIfInBounds, hlt, ← hget]
  · rfl

/-! ## A table filled from entries -/

theorem slotOf?_foldl {l : List (UInt8 × Nat)} (hs : l.Pairwise (·.1 < ·.1))
    (count : Nat) (slots : Array (Option α)) (index : Vector (Option (Fin 48)) 256) {i : Fin 48} :
    slotOf? ⟨count, l.foldl (fun index (byte, i) =>
      if h : i < 48 then index.set byte.toFin (some ⟨i, h⟩) else index) index, slots⟩ byte =
        some i ↔
      (byte, i.val) ∈ l ∨
        (∀ e ∈ l, e.1 ≠ byte ∨ 48 ≤ e.2) ∧ slotOf? ⟨count, index, slots⟩ byte = some i := by
  induction l generalizing index with
  | nil => simp
  | cons e l ih =>
    obtain ⟨b, j⟩ := e
    obtain ⟨he, hs⟩ := List.pairwise_cons.1 hs
    rw [List.foldl_cons, ih hs]
    by_cases hj : j < 48
    · simp only [dif_pos hj, slotOf?_set ⟨count, index, slots⟩]
      by_cases hb : byte = b
      · subst hb
        have hl : (byte, i.val) ∉ l := fun hm => UInt8.lt_irrefl byte (he _ hm)
        have hne : ∀ x ∈ l, x.1 ≠ byte ∨ 48 ≤ x.2 :=
          fun x hx => .inl fun hx' => UInt8.lt_irrefl byte (hx' ▸ he x hx)
        have hlt : ¬ 48 ≤ j := by omega
        simp only [Function.update_self, List.mem_cons, hl, or_false, false_or, Prod.mk.injEq,
          true_and, forall_eq_or_imp, ne_eq, not_true_eq_false, hlt, false_and, Option.some.injEq]
        refine ⟨fun h => by rw [← h.2], fun h => ⟨hne, Fin.ext h.symm⟩⟩
      · rw [Function.update_of_ne hb]
        simp only [List.mem_cons, Prod.mk.injEq, hb, false_and, false_or, forall_eq_or_imp,
          ne_eq, Ne.symm hb, not_false_eq_true, true_or, true_and]
    · have hij : i.val ≠ j := by omega
      have hle : 48 ≤ j := by omega
      simp only [dif_neg hj, List.mem_cons, Prod.mk.injEq, hij, and_false, false_or,
        forall_eq_or_imp, hle, or_true, true_and]

theorem pairwise_zipIdx {l : List UInt8} (hs : l.Pairwise (· < ·)) (n : Nat) :
    (l.zipIdx n).Pairwise (·.1 < ·.1) := by
  have h : ((l.zipIdx n).map Prod.fst).Pairwise (· < ·) := by rwa [List.zipIdx_map_fst]
  rwa [List.pairwise_map] at h

theorem slotOf?_indexOf {bytes : List UInt8} (hs : bytes.Pairwise (· < ·)) (count : Nat)
    (slots : Array (Option α)) {i : Fin 48} :
    slotOf? ⟨count, indexOf bytes, slots⟩ byte = some i ↔ bytes[i.val]? = some byte := by
  have hnone : slotOf? ⟨count, Vector.replicate 256 none, slots⟩ byte = none := by
    simp [slotOf?]
  rw [indexOf, slotOf?_foldl (pairwise_zipIdx hs 0), hnone]
  simp [List.mk_mem_zipIdx_iff_getElem?]

theorem slotOf?_ofEntries {l : List (UInt8 × α)} (hs : l.Pairwise (·.1 < ·.1)) {i : Fin 48} :
    (ofEntries l).slotOf? byte = some i ↔ ∃ child, l[i.val]? = some (byte, child) := by
  have hbytes : (l.map Prod.fst).Pairwise (· < ·) := List.pairwise_map.2 hs
  rw [ofEntries, slotOf?_indexOf hbytes, List.getElem?_map, Option.map_eq_some_iff]
  constructor
  · rintro ⟨⟨_, child⟩, hl, rfl⟩
    exact ⟨child, hl⟩
  · rintro ⟨child, hl⟩
    exact ⟨(byte, child), hl, rfl⟩

theorem childAt?_ofEntries (l : List (UInt8 × α)) (i : Fin 48) :
    (ofEntries l).childAt? i = l[i.val]?.map Prod.snd := by
  simp only [childAt?, ofEntries, List.getElem?_toArray]
  by_cases hi : i.val < l.length
  · rw [List.getElem?_append_left (by simpa using hi)]
    simp [hi]
  · rw [List.getElem?_append_right (by simpa using hi), List.getElem?_replicate,
      List.getElem?_eq_none (Nat.le_of_not_lt hi)]
    split <;> rfl

theorem find?_ofEntries {l : List (UInt8 × α)} (hs : l.Pairwise (·.1 < ·.1))
    (hlen : l.length ≤ 48) : (ofEntries l).find? byte = some child ↔ (byte, child) ∈ l := by
  rw [find?_eq_bind, Option.bind_eq_some_iff, List.mem_iff_getElem?]
  constructor
  · rintro ⟨i, hb, hc⟩
    obtain ⟨c, hi⟩ := (slotOf?_ofEntries hs).1 hb
    rw [childAt?_ofEntries, hi] at hc
    exact ⟨i, by rw [hi, ← Option.some.inj hc]⟩
  · rintro ⟨i, hi⟩
    have hlt : i < 48 := Nat.lt_of_lt_of_le (List.getElem?_eq_some_iff.1 hi).1 hlen
    refine ⟨⟨i, hlt⟩, (slotOf?_ofEntries hs).2 ⟨child, hi⟩, ?_⟩
    rw [childAt?_ofEntries, hi]
    rfl

theorem valid_ofEntries {l : List (UInt8 × α)} (hs : l.Pairwise (·.1 < ·.1))
    (hlen : l.length ≤ 48) : (ofEntries l).Valid where
  slots_size := by simp [ofEntries]; omega
  taken := by
    intro b i hb
    obtain ⟨c, hi⟩ := (slotOf?_ofEntries hs).1 hb
    simp [childAt?_ofEntries, hi]
  injective := by
    intro a b i ha hb
    obtain ⟨c, hi⟩ := (slotOf?_ofEntries hs).1 ha
    obtain ⟨d, hj⟩ := (slotOf?_ofEntries hs).1 hb
    exact congrArg Prod.fst (Option.some.inj (hi.symm.trans hj))
  covered := by
    intro i hi
    rw [childAt?_ofEntries, Option.isSome_map] at hi
    obtain ⟨⟨b, c⟩, hb⟩ := Option.isSome_iff_exists.1 hi
    exact ⟨b, (slotOf?_ofEntries hs).2 ⟨c, hb⟩⟩
  count_eq := by rw [Probe.entries_eq hs fun e => (find?_ofEntries hs hlen).symm]; rfl

end AdaptiveRadix.IndexedSlots
