/-
Laws of keys. Bytes and the number they spell determine each other, and among keys of one
length the order of the numbers is the order of the keys. The common length of two byte
strings is where they first part.
-/
import Mathlib
import AdaptiveRadix.Key

namespace AdaptiveRadix.Key

/-! ## Numbers -/

@[simp] theorem length_bigEndian (width n : Nat) : (bigEndian width n).length = width := by
  induction width generalizing n with
  | zero => rfl
  | succ width ih => simp [bigEndian, ih]

theorem number_concat (key : Key) (b : UInt8) : number (key ++ [b]) = number key * 256 + b.toNat := by
  simp [number]

theorem number_bigEndian {width n : Nat} (h : n < 256 ^ width) :
    number (bigEndian width n) = n := by
  induction width generalizing n with
  | zero =>
    rw [pow_zero, Nat.lt_one_iff] at h
    subst h
    rfl
  | succ width ih =>
    have hn : n / 256 < 256 ^ width := Nat.div_lt_of_lt_mul (by rwa [pow_succ'] at h)
    rw [bigEndian, number_concat, ih hn, UInt8.toNat_ofNat_of_lt' (Nat.mod_lt _ (by decide))]
    exact Nat.div_add_mod' n 256

theorem bigEndian_number (key : Key) : bigEndian key.length (number key) = key := by
  induction key using List.reverseRecOn with
  | nil => rfl
  | append_singleton key b ih =>
    have hb := b.toNat_lt
    rw [List.length_append, List.length_singleton, bigEndian, number_concat,
      show (number key * 256 + b.toNat) / 256 = number key by omega,
      show (number key * 256 + b.toNat) % 256 = b.toNat by omega, ih, UInt8.ofNat_toNat]

theorem foldl_number (key : Key) (n : Nat) :
    key.foldl (fun n b => n * 256 + b.toNat) n = n * 256 ^ key.length + number key := by
  induction key using List.reverseRecOn with
  | nil => simp [number]
  | append_singleton key b ih =>
    rw [List.foldl_concat, ih, number_concat, List.length_append, List.length_singleton, pow_succ]
    ring

theorem number_cons (b : UInt8) (key : Key) :
    number (b :: key) = b.toNat * 256 ^ key.length + number key := by
  rw [← foldl_number, number, List.foldl_cons, Nat.zero_mul, Nat.zero_add]

theorem number_lt (key : Key) : number key < 256 ^ key.length := by
  induction key with
  | nil => decide
  | cons b key ih =>
    rw [number_cons, List.length_cons, pow_succ']
    have hb := Nat.mul_le_mul_right (256 ^ key.length) (Nat.succ_le_of_lt b.toNat_lt)
    rw [Nat.succ_mul] at hb
    omega

/-- Keys of one length are in the order of the numbers that they spell. -/
theorem number_lt_iff {a b : Key} (h : a.length = b.length) : number a < number b ↔ a < b := by
  induction a generalizing b with
  | nil =>
    cases b with
    | nil => simp
    | cons => simp at h
  | cons x a ih =>
    cases b with
    | nil => simp at h
    | cons y b =>
      have hl : a.length = b.length := by simpa using h
      have ha := number_lt a
      have hb := number_lt b
      rw [number_cons, number_cons, List.cons_lt_cons_iff, ← ih hl, hl]
      rw [hl] at ha
      constructor
      · intro hn
        rcases Nat.lt_trichotomy x.toNat y.toNat with hx | hx | hx
        · exact .inl (UInt8.lt_iff_toNat_lt.2 hx)
        · exact .inr ⟨UInt8.toNat_inj.1 hx, by rw [hx] at hn; omega⟩
        · have := Nat.mul_le_mul_right (256 ^ b.length) hx
          rw [Nat.succ_mul] at this
          omega
      · rintro (hx | ⟨rfl, hn⟩)
        · have := Nat.mul_le_mul_right (256 ^ b.length) (UInt8.lt_iff_toNat_lt.1 hx)
          rw [Nat.succ_mul] at this
          omega
        · omega

/-! ## Common beginnings -/

/-- Where both strings go on after their common beginning, they go on with different bytes. -/
theorem ne_of_getElem?_commonLength {a b : List UInt8} {x y : UInt8}
    (hx : a[commonLength a b]? = some x) (hy : b[commonLength a b]? = some y) : x ≠ y := by
  induction a generalizing b with
  | nil => simp at hx
  | cons u a ih =>
    cases b with
    | nil => simp at hy
    | cons v b =>
      by_cases huv : u = v
      · simp only [commonLength, if_pos huv, List.getElem?_cons_succ] at hx hy
        exact ih hx hy
      · simp only [commonLength, if_neg huv, List.getElem?_cons_zero, Option.some.injEq] at hx hy
        rwa [← hx, ← hy]

end AdaptiveRadix.Key
