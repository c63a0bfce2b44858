/-
Where two keys part. Keys that go on with different bytes after a common beginning are in the
order of these bytes, and neither begins the other. Of two keys that do not part, one begins
the other.
-/
import AdaptiveRadix.Key.Lemmas

namespace AdaptiveRadix.Key

variable {a b c d p q : Key} {x y : UInt8}

/-- After a common beginning the first key goes on with a smaller byte than the second. -/
def PartsBelow (a b : Key) : Prop :=
  ∃ p x y, p ++ [x] <+: a ∧ p ++ [y] <+: b ∧ x < y

/-- After a common beginning the keys go on with different bytes. -/
def Parts (a b : Key) : Prop :=
  PartsBelow a b ∨ PartsBelow b a

theorem PartsBelow.lt (h : PartsBelow a b) : a < b := by
  obtain ⟨p, x, y, ⟨s, rfl⟩, ⟨t, rfl⟩, hxy⟩ := h
  rw [List.append_assoc, List.append_assoc]
  exact List.append_left_lt (List.cons_lt_cons_iff.2 (.inl hxy))

/-- A key is greater than what it begins with and goes on from. -/
theorem lt_of_isPrefix (h : p ++ [x] <+: a) : p < a := by
  obtain ⟨s, rfl⟩ := h
  rw [List.append_assoc]
  conv_lhs => rw [← List.append_nil p]
  exact List.append_left_lt (List.nil_lt_cons ..)

theorem PartsBelow.extend (h : PartsBelow a b) (ha : a <+: c) (hb : b <+: d) : PartsBelow c d := by
  obtain ⟨p, x, y, hx, hy, hxy⟩ := h
  exact ⟨p, x, y, hx.trans ha, hy.trans hb, hxy⟩

theorem PartsBelow.append_left (h : PartsBelow a b) (p : Key) : PartsBelow (p ++ a) (p ++ b) := by
  obtain ⟨q, x, y, hx, hy, hxy⟩ := h
  refine ⟨p ++ q, x, y, ?_, ?_, hxy⟩
  · rwa [List.append_assoc, List.prefix_append_right_inj]
  · rwa [List.append_assoc, List.prefix_append_right_inj]

theorem branch_isPrefix_iff : p ++ q ++ [x] <+: a ↔ ∃ k, a = p ++ (q ++ x :: k) := by
  constructor
  · rintro ⟨k, rfl⟩
    exact ⟨k, by rw [List.append_assoc, List.append_assoc, List.singleton_append]⟩
  · rintro ⟨k, rfl⟩
    exact ⟨k, by rw [List.append_assoc, List.append_assoc, List.singleton_append]⟩

theorem partsBelow_of_lt (hxy : x < y) : PartsBelow (p ++ [x]) (p ++ [y]) :=
  ⟨p, x, y, List.prefix_rfl, List.prefix_rfl, hxy⟩

theorem parts_of_ne (hxy : x ≠ y) : Parts (p ++ [x]) (p ++ [y]) := by
  rcases Nat.lt_or_gt_of_ne (fun h => hxy (UInt8.toNat_inj.1 h)) with h | h
  · exact .inl (partsBelow_of_lt (UInt8.lt_iff_toNat_lt.2 h))
  · exact .inr (partsBelow_of_lt (UInt8.lt_iff_toNat_lt.2 h))

theorem Parts.symm (h : Parts a b) : Parts b a := Or.symm h

theorem Parts.extend (h : Parts a b) (ha : a <+: c) (hb : b <+: d) : Parts c d := by
  rcases h with h | h
  · exact .inl (h.extend ha hb)
  · exact .inr (h.extend hb ha)

theorem Parts.ne (h : Parts a b) : a ≠ b := by
  rintro rfl
  rcases h with h | h <;> exact List.lt_irrefl _ h.lt

/-- Keys that part stay apart however they are extended, so neither begins the other. -/
theorem Parts.not_isPrefix (h : Parts a b) : ¬ a <+: b :=
  fun hp => (h.extend hp List.prefix_rfl).ne rfl

/-- Comparing byte strings tells which is less. -/
theorem compare_eq_lt_iff : compare a b = .lt ↔ a < b := by
  induction a generalizing b with
  | nil => cases b <;> simp
  | cons x a ih =>
    cases b with
    | nil => simp
    | cons y b =>
      rw [List.compare_cons_cons, Ordering.then_eq_lt, ih, List.cons_lt_cons_iff, Std.compare_eq_lt,
        Std.LawfulEqCmp.compare_eq_iff_eq]

/-! ## The common beginning -/

theorem getElem?_append_add (p l : List UInt8) (n : Nat) : (p ++ l)[p.length + n]? = l[n]? := by
  rw [List.getElem?_append_right (Nat.le_add_right ..), Nat.add_sub_cancel_left]

theorem getElem?_of_isPrefix {n : Nat} (h : a <+: b) (hx : a[n]? = some x) : b[n]? = some x := by
  obtain ⟨hn, rfl⟩ := List.getElem?_eq_some_iff.1 hx
  exact List.prefix_iff_getElem?.1 h n hn

/-- Two byte strings part, or one of them begins the other. -/
theorem commonLength_cases (a b : List UInt8) :
    (∃ p x y a' b', a = p ++ x :: a' ∧ b = p ++ y :: b' ∧ x ≠ y ∧ commonLength a b = p.length) ∨
      (∃ b', b = a ++ b' ∧ commonLength a b = a.length) ∨
      ∃ y a', a = b ++ y :: a' ∧ commonLength a b = b.length := by
  induction a generalizing b with
  | nil => exact .inr (.inl ⟨b, rfl, by simp [commonLength]⟩)
  | cons u a ih =>
    cases b with
    | nil => exact .inr (.inr ⟨u, a, rfl, rfl⟩)
    | cons v b =>
      by_cases huv : u = v
      · subst huv
        simp only [commonLength, if_true]
        rcases ih b with ⟨p, x, y, a', b', rfl, rfl, hxy, hn⟩ | ⟨b', rfl, hn⟩ | ⟨y, a', rfl, hn⟩
        · exact .inl ⟨u :: p, x, y, a', b', rfl, rfl, hxy, by rw [hn, List.length_cons]⟩
        · exact .inr (.inl ⟨b', rfl, by rw [hn, List.length_cons]⟩)
        · exact .inr (.inr ⟨y, a', rfl, by rw [hn, List.length_cons]⟩)
      · exact .inl ⟨[], u, v, a, b, rfl, rfl, huv, by simp [commonLength, huv]⟩

/-- Between two byte strings that begin alike all others begin so, too. -/
theorem isPrefix_of_le_of_le (ha : p <+: a) (hb : p <+: b) (hac : a ≤ c) (hcb : c ≤ b) :
    p <+: c := by
  rcases commonLength_cases p c with
    ⟨q, x, y, p', c', rfl, rfl, hxy, -⟩ | ⟨c', rfl, -⟩ | ⟨y, p', rfl, -⟩
  · have hp : q ++ [x] <+: q ++ x :: p' := ⟨p', by simp⟩
    have hc : q ++ [y] <+: q ++ y :: c' := ⟨c', by simp⟩
    rcases parts_of_ne (p := q) hxy with h | h
    · exact absurd (h.extend (hp.trans hb) hc).lt (List.not_lt.2 hcb)
    · exact absurd (h.extend hc (hp.trans ha)).lt (List.not_lt.2 hac)
  · exact List.prefix_append ..
  · have hc : c ++ [y] <+: c ++ y :: p' := ⟨p', by simp⟩
    exact absurd (lt_of_isPrefix (hc.trans ha)) (List.not_lt.2 hac)

/-! ## What the tree asks of a key -/

theorem check_cases (key : Key) :
    (key = [] ∧ check key = .error .empty) ∨
      (maxLength < key.length ∧ check key = .error (.tooLong ⟨key.length, maxLength⟩)) ∨
      (key ≠ [] ∧ key.length ≤ maxLength ∧ check key = .ok ()) := by
  rw [check]
  by_cases he : key = []
  · exact .inl ⟨he, by simp [he]⟩
  · by_cases hl : maxLength < key.length
    · exact .inr (.inl ⟨hl, by simp [he, hl]⟩)
    · exact .inr (.inr ⟨he, Nat.le_of_not_lt hl, by simp [he, hl]⟩)

theorem check_eq_ok_iff {key : Key} : check key = .ok () ↔ key ≠ [] ∧ key.length ≤ maxLength := by
  rcases check_cases key with ⟨rfl, hc⟩ | ⟨hl, hc⟩ | ⟨he, hl, hc⟩
  · simp [hc]
  · simp [hc, Nat.not_le.2 hl]
  · simp [he, hl, hc]

end AdaptiveRadix.Key
