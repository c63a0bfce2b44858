/-
Laws of paths. A path of given bytes has their length, as far as the size can hold it,
and stores their first nine; it is determined by the two. Joined paths are the path of the
joined bytes, although neither of them stores all of its own.
-/
import AdaptiveRadix.Path

namespace AdaptiveRadix.Path

theorem length_ofLength {bytes : List UInt8} {length : Nat} (h : length < UInt32.size) :
    (ofLength bytes length).length = length := by
  simpa [ofLength, Path.length] using h

theorem length_ofBytes {bytes : List UInt8} (h : bytes.length < UInt32.size) :
    (ofBytes bytes).length = bytes.length :=
  length_ofLength h

/-- The stored bytes are the first nine, filled up with zeros. -/
theorem toList_stored_ofLength (bytes : List UInt8) (length : Nat) :
    (ofLength bytes length).stored.toList =
      ((bytes.take length).take capacity ++ List.replicate capacity 0).take capacity := by
  apply List.ext_getElem
  · simp
  · intro i hi _
    have hi' : i < capacity := by simpa using hi
    simp only [ofLength, Vector.getElem_toList, Vector.getElem_ofFn, List.getElem_take,
      List.getElem_append, List.getElem_replicate, List.length_take]
    split
    · next h =>
      rw [List.getElem?_eq_getElem (by simp only [List.length_take]; omega)]
      simp
    · next h =>
      rw [List.getElem?_eq_none (by simp only [List.length_take]; omega)]
      rfl

theorem inline_ofBytes {bytes : List UInt8} (h : bytes.length < UInt32.size) :
    (ofBytes bytes).inline = bytes.take capacity := by
  have hl : (bytes.take capacity).length = min bytes.length capacity := by
    rw [List.length_take, Nat.min_comm]
  rw [inline, length_ofBytes h, ofBytes, toList_stored_ofLength, List.take_length,
    List.take_take, ← hl, List.take_left]

theorem toList_stored_ofBytes (bytes : List UInt8) :
    (ofBytes bytes).stored.toList =
      bytes.take capacity ++ List.replicate (capacity - bytes.length) 0 := by
  rw [ofBytes, toList_stored_ofLength, List.take_length, List.take_append, List.take_take,
    Nat.min_self, List.take_replicate, List.length_take]
  congr 2
  omega

theorem isTruncated_iff {path : Path} : path.isTruncated = true ↔ capacity < path.length := by
  simp [isTruncated]

theorem length_inline (path : Path) : path.inline.length = min path.length capacity := by
  simp [inline]

/-- Only the first nine bytes matter to a path of a given length. -/
theorem ofLength_congr {a b : List UInt8} {length : Nat}
    (h : ∀ i < capacity, i < length → a[i]? = b[i]?) : ofLength a length = ofLength b length := by
  unfold ofLength
  congr 1
  refine Vector.ext fun i hi => ?_
  rw [Vector.getElem_ofFn, Vector.getElem_ofFn]
  by_cases hl : i < length
  · rw [List.getElem?_take_of_lt hl, List.getElem?_take_of_lt hl, h i hi hl]
  · rw [List.getElem?_take_eq_none (Nat.le_of_not_lt hl),
      List.getElem?_take_eq_none (Nat.le_of_not_lt hl)]

theorem getElem?_take_append {as bs : List UInt8} {n i : Nat} (hi : i < n) :
    (as.take n ++ bs)[i]? = (as ++ bs)[i]? := by
  by_cases hl : as.length ≤ n
  · rw [List.take_of_length_le hl]
  · have hlt : i < as.length := by omega
    rw [List.getElem?_append_left (by rw [List.length_take]; omega), List.getElem?_take_of_lt hi,
      List.getElem?_append_left hlt]

/-- What is stored of two paths suffices to join them. -/
theorem join_ofBytes {upper lower : List UInt8} {byte : UInt8}
    (h : upper.length + 1 + lower.length < UInt32.size) :
    join (ofBytes upper) byte (ofBytes lower) = ofBytes (upper ++ byte :: lower) := by
  have hlen : (upper ++ byte :: lower).length = upper.length + 1 + lower.length := by
    rw [List.length_append, List.length_cons]
    omega
  rw [join, length_ofBytes (by omega), length_ofBytes (by omega), inline_ofBytes (by omega),
    inline_ofBytes (by omega), ofBytes, hlen]
  refine ofLength_congr fun i hi _ => ?_
  rw [getElem?_take_append hi]
  by_cases hu : i < upper.length
  · rw [List.getElem?_append_left hu, List.getElem?_append_left hu]
  obtain ⟨j, rfl⟩ := Nat.exists_eq_add_of_le (Nat.le_of_not_lt hu)
  rw [List.getElem?_append_right (Nat.le_add_right ..), List.getElem?_append_right
    (Nat.le_add_right ..), Nat.add_sub_cancel_left]
  cases j with
  | zero => rfl
  | succ j =>
    rw [List.getElem?_cons_succ, List.getElem?_cons_succ, List.getElem?_take_of_lt (by omega)]

end AdaptiveRadix.Path
