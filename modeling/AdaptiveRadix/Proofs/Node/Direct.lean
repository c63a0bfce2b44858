/-
One slot for every byte. What such slots hold is read off slot by slot, so the only thing to
keep valid is their number and the count beside them.
-/
import AdaptiveRadix.Proofs.Node.Probe

namespace AdaptiveRadix.DirectSlots

variable {α : Type} {direct : DirectSlots α} {byte : UInt8}

/-- There is a slot for every byte, and the count is the number of those with a child. -/
structure Valid (direct : DirectSlots α) : Prop where
  slots_size : direct.slots.size = 256
  count_eq : direct.count = (Probe.entries direct.find?).length

theorem toNat_lt_size (h : direct.slots.size = 256) (byte : UInt8) :
    byte.toNat < direct.slots.size := h ▸ byte.toNat_lt

theorem find?_setIfInBounds (direct : DirectSlots α) (h : direct.slots.size = 256) (byte : UInt8)
    (slot : Option α) (count : Nat) :
    find? ⟨count, direct.slots.setIfInBounds byte.toNat slot⟩ =
      Function.update direct.find? byte slot := by
  funext b
  by_cases hb : b = byte
  · subst hb
    rw [find?, Array.getElem?_setIfInBounds_self_of_lt (toNat_lt_size h b), Function.update_self]
    rfl
  · have hne : byte.toNat ≠ b.toNat := fun he => hb (UInt8.toNat_inj.1 he.symm)
    rw [find?, Array.getElem?_setIfInBounds_ne hne, Function.update_of_ne hb]
    rfl

theorem Valid.insert (h : direct.Valid) (byte : UInt8) (child : α) :
    (direct.insert byte child).Valid ∧
      (direct.insert byte child).find? = Function.update direct.find? byte (some child) := by
  have hf := find?_setIfInBounds direct h.slots_size byte (some child)
    (if (direct.find? byte).isNone then direct.count + 1 else direct.count)
  refine ⟨⟨by simp [DirectSlots.insert, h.slots_size], ?_⟩, hf⟩
  rw [DirectSlots.insert, hf]
  cases hb : direct.find? byte with
  | none => rw [Probe.length_entries_insert hb, h.count_eq]; rfl
  | some old => rw [Probe.length_entries_replace (by simp [hb]), h.count_eq]; rfl

theorem Valid.replace (h : direct.Valid) (hold : (direct.find? byte).isSome) (child : α) :
    (direct.replace byte child).Valid ∧
      (direct.replace byte child).find? = Function.update direct.find? byte (some child) := by
  have hf := find?_setIfInBounds direct h.slots_size byte (some child) direct.count
  obtain ⟨old, hb⟩ := Option.isSome_iff_exists.1 hold
  rw [DirectSlots.replace, hb]
  refine ⟨⟨by simp [h.slots_size], ?_⟩, hf⟩
  rw [hf, Probe.length_entries_replace hold, h.count_eq]

theorem Valid.remove (h : direct.Valid) (byte : UInt8) :
    (direct.remove byte).1 = direct.find? byte ∧ (direct.remove byte).2.Valid ∧
      (direct.remove byte).2.find? = Function.update direct.find? byte none := by
  cases hb : direct.find? byte with
  | none =>
    simp only [DirectSlots.remove, hb]
    exact ⟨trivial, h, by rw [← hb, Function.update_eq_self]⟩
  | some old =>
    have hf := find?_setIfInBounds direct h.slots_size byte none (direct.count - 1)
    have hlen := Probe.length_entries_remove (show (direct.find? byte).isSome by simp [hb])
    simp only [DirectSlots.remove, hb]
    refine ⟨trivial, ⟨by simp [h.slots_size], ?_⟩, hf⟩
    rw [hf]
    show direct.count - 1 = _
    rw [h.count_eq]
    omega

/-- Putting the child under a byte in its own place changes nothing. -/
theorem replace_self {child : α} (h : direct.find? byte = some child) :
    direct.replace byte child = direct := by
  rw [replace, h]
  rw [find?, Option.join_eq_some_iff] at h
  obtain ⟨hlt, hget⟩ := Array.getElem?_eq_some_iff.1 h
  simp [Array.setIfInBounds, hlt, ← hget]

/-! ## Slots filled from entries -/

theorem foldl_setIfInBounds_size (l : List (UInt8 × α)) (slots : Array (Option α)) :
    (l.foldl (fun slots (byte, child) => slots.setIfInBounds byte.toNat (some child)) slots).size =
      slots.size := by
  induction l generalizing slots with
  | nil => rfl
  | cons e l ih => rw [List.foldl_cons, ih, Array.size_setIfInBounds]

theorem find?_foldl {l : List (UInt8 × α)} (hs : l.Pairwise (·.1 < ·.1)) {count : Nat}
    {slots : Array (Option α)} (h : slots.size = 256) {byte : UInt8} {child : α} :
    find? ⟨count, l.foldl (fun slots (byte, child) => slots.setIfInBounds byte.toNat (some child))
      slots⟩ byte = some child ↔
      (byte, child) ∈ l ∨ (∀ e ∈ l, e.1 ≠ byte) ∧ find? ⟨count, slots⟩ byte = some child := by
  induction l generalizing slots with
  | nil => simp
  | cons e l ih =>
    obtain ⟨he, hs⟩ := List.pairwise_cons.1 hs
    rw [List.foldl_cons, ih hs (by simpa using h),
      find?_setIfInBounds ⟨count, slots⟩ h e.1 (some e.2) count]
    by_cases hb : byte = e.1
    · subst hb
      have hl : (e.1, child) ∉ l := fun hm => UInt8.lt_irrefl e.1 (he (e.1, child) hm)
      have hne : ∀ x ∈ l, x.1 ≠ e.1 := fun x hx => by have := he x hx; grind
      simp only [Function.update_self, List.mem_cons, hl, or_false, false_or]
      constructor
      · rintro ⟨-, hc⟩
        exact .inl (Prod.ext rfl (Option.some.inj hc).symm)
      · rintro (hx | ⟨hx, -⟩)
        · exact ⟨hne, by rw [← hx]⟩
        · exact absurd rfl (hx e (.inl rfl))
    · have hne : (byte, child) ≠ e := fun hx => hb (congrArg Prod.fst hx)
      rw [Function.update_of_ne hb, List.forall_mem_cons, List.mem_cons]
      simp only [hne, Ne.symm hb, ne_eq, not_false_eq_true, true_and, false_or]

theorem find?_ofEntries {l : List (UInt8 × α)} (hs : l.Pairwise (·.1 < ·.1)) {byte : UInt8}
    {child : α} : (ofEntries l).find? byte = some child ↔ (byte, child) ∈ l := by
  have hnone : find? ⟨l.length, Array.replicate 256 none⟩ byte = (none : Option α) := by
    rw [find?, Array.getElem?_replicate]
    split <;> rfl
  rw [ofEntries, find?_foldl hs Array.size_replicate, hnone]
  simp

theorem valid_ofEntries {l : List (UInt8 × α)} (hs : l.Pairwise (·.1 < ·.1)) :
    (ofEntries l).Valid where
  slots_size := (foldl_setIfInBounds_size l _).trans Array.size_replicate
  count_eq := by rw [Probe.entries_eq hs fun e => (find?_ofEntries hs).symm]; rfl

end AdaptiveRadix.DirectSlots
