/-
The two encodings. Encoded strings are in the order of the strings, encoded integers in the
order of the numbers, and no key of either encoding begins another of the same.
-/
import AdaptiveRadix.Proofs.Key.Order

namespace AdaptiveRadix.Key

variable {s t : List UInt8} {a b key : Key} {m n : UInt64} {position : Nat} {size : Oversize}

/-! ## Byte strings -/

/-- A string is refused for the first terminator inside it, or, without one, for its length, and
otherwise gets its key. -/
theorem encode_cases (s : List UInt8) :
    (∃ position, s[position]? = some terminator ∧ (∀ i < position, s[i]? ≠ some terminator) ∧
        encode s = .error (.interiorTerminator position)) ∨
      (terminator ∉ s ∧ maxLength ≤ s.length ∧
        encode s = .error (.tooLong ⟨s.length + 1, maxLength⟩)) ∨
      (terminator ∉ s ∧ s.length + 1 ≤ maxLength ∧ encode s = .ok (s ++ [terminator])) := by
  cases hf : s.findIdx? (· == terminator) with
  | some position =>
    obtain ⟨hlt, heq, hfirst⟩ := List.findIdx?_eq_some_iff_getElem.1 hf
    refine .inl ⟨position, ?_, fun i hi he => ?_, by rw [encode, hf]⟩
    · rw [List.getElem?_eq_getElem hlt, eq_of_beq heq]
    · exact hfirst i hi (beq_iff_eq.2 (List.getElem?_eq_some_iff.1 he).2)
  | none =>
    have hnot : terminator ∉ s := fun hm => by simpa using List.findIdx?_eq_none_iff.1 hf _ hm
    by_cases hlong : maxLength < s.length + 1
    · exact .inr (.inl ⟨hnot, Nat.le_of_lt_succ hlong, by simp only [encode, hf, if_pos hlong]⟩)
    · exact .inr (.inr ⟨hnot, Nat.le_of_not_lt hlong, by simp only [encode, hf, if_neg hlong]⟩)

theorem encode_eq_ok_iff :
    encode s = .ok key ↔
      terminator ∉ s ∧ s.length + 1 ≤ maxLength ∧ key = s ++ [terminator] := by
  rcases encode_cases s with ⟨position, hp, -, he⟩ | ⟨-, hlong, he⟩ | ⟨hnot, hle, he⟩
  · rw [he]
    exact ⟨nofun, fun h => absurd (List.mem_of_getElem? hp) h.1⟩
  · rw [he]
    exact ⟨nofun, fun h => absurd h.2.1 (Nat.not_le.2 (Nat.lt_succ_of_le hlong))⟩
  · rw [he, Except.ok.injEq]
    exact ⟨fun heq => ⟨hnot, hle, heq.symm⟩, fun h => h.2.2.symm⟩

theorem encode_eq_interiorTerminator_iff :
    encode s = .error (.interiorTerminator position) ↔
      s[position]? = some terminator ∧ ∀ i < position, s[i]? ≠ some terminator := by
  rcases encode_cases s with ⟨first, hp, hfirst, he⟩ | ⟨hnot, -, he⟩ | ⟨hnot, -, he⟩
  · rw [he, Except.error.injEq, KeyError.interiorTerminator.injEq]
    constructor
    · rintro rfl
      exact ⟨hp, hfirst⟩
    · rintro ⟨hp', hfirst'⟩
      rcases Nat.lt_trichotomy first position with hlt | heq | hlt
      · exact absurd hp (hfirst' first hlt)
      · exact heq
      · exact absurd hp' (hfirst position hlt)
  · rw [he]
    exact ⟨nofun, fun h => absurd (List.mem_of_getElem? h.1) hnot⟩
  · rw [he]
    exact ⟨nofun, fun h => absurd (List.mem_of_getElem? h.1) hnot⟩

theorem encode_eq_tooLong_iff :
    encode s = .error (.tooLong size) ↔
      terminator ∉ s ∧ maxLength ≤ s.length ∧ size = ⟨s.length + 1, maxLength⟩ := by
  rcases encode_cases s with ⟨position, hp, -, he⟩ | ⟨hnot, hlong, he⟩ | ⟨-, hle, he⟩
  · rw [he]
    exact ⟨nofun, fun h => absurd (List.mem_of_getElem? hp) h.1⟩
  · rw [he, Except.error.injEq, KeyError.tooLong.injEq]
    exact ⟨fun heq => ⟨hnot, hlong, heq.symm⟩, fun h => h.2.2.symm⟩
  · rw [he]
    exact ⟨nofun, fun h => absurd hle (Nat.not_le.2 (Nat.lt_succ_of_le h.2.1))⟩

theorem encode_eq_error_iff :
    (∃ reason, encode s = .error reason) ↔ terminator ∈ s ∨ maxLength ≤ s.length := by
  rcases encode_cases s with ⟨position, hp, -, he⟩ | ⟨-, hlong, he⟩ | ⟨hnot, hle, he⟩
  · exact iff_of_true ⟨_, he⟩ (.inl (List.mem_of_getElem? hp))
  · exact iff_of_true ⟨_, he⟩ (.inr hlong)
  · refine iff_of_false (fun ⟨_, herror⟩ => ?_) (not_or.2 ⟨hnot, Nat.not_le.2 hle⟩)
    cases he.symm.trans herror

theorem check_encode (h : encode s = .ok key) : check key = .ok () := by
  obtain ⟨-, hlen, rfl⟩ := encode_eq_ok_iff.1 h
  refine check_eq_ok_iff.2 ⟨List.append_ne_nil_of_right_ne_nil s (List.cons_ne_nil _ _), ?_⟩
  rwa [List.length_append, List.length_singleton]

theorem decode?_eq_some_iff : decode? key = some s ↔ key = s ++ [terminator] := by
  rw [decode?]
  constructor
  · intro h
    obtain ⟨hlast, hs⟩ := Option.ite_none_right_eq_some.1 h
    rw [← Option.some.inj hs]
    exact (List.dropLast_append_getLast? _ hlast).symm
  · rintro rfl
    rw [List.getLast?_concat, if_pos rfl, List.dropLast_concat]

/-- Where one string ends and another goes on, the terminator is less than what the other goes on
with. -/
theorem partsBelow_encode (hs : encode s = .ok a) (ht : encode t = .ok b) (hlt : s < t) :
    PartsBelow a b := by
  obtain ⟨-, -, rfl⟩ := encode_eq_ok_iff.1 hs
  obtain ⟨hnot, -, rfl⟩ := encode_eq_ok_iff.1 ht
  rcases commonLength_cases s t with
    ⟨p, x, y, s', t', rfl, rfl, hxy, -⟩ | ⟨t', rfl, -⟩ | ⟨y, s', rfl, -⟩
  · have hs : p ++ [x] <+: p ++ x :: s' := ⟨s', by simp⟩
    have ht : p ++ [y] <+: p ++ y :: t' := ⟨t', by simp⟩
    rcases parts_of_ne (p := p) hxy with h | h
    · exact h.extend (hs.trans (List.prefix_append ..)) (ht.trans (List.prefix_append ..))
    · exact absurd hlt (List.lt_asymm (h.extend ht hs).lt)
  · cases t' with
    | nil =>
      rw [List.append_nil] at hlt
      exact absurd hlt (List.lt_irrefl s)
    | cons y t' =>
      have hy : terminator < y := by
        refine UInt8.lt_iff_toNat_lt.2 (Nat.pos_of_ne_zero fun h0 => hnot ?_)
        rw [show terminator = y from (UInt8.toNat_inj.1 h0).symm]
        simp
      refine (partsBelow_of_lt (p := s) hy).extend List.prefix_rfl ⟨t' ++ [terminator], ?_⟩
      simp
  · exact absurd hlt (List.lt_asymm (lt_of_isPrefix (x := y) ⟨s', by simp⟩))

theorem encode_lt_iff (hs : encode s = .ok a) (ht : encode t = .ok b) : a < b ↔ s < t := by
  refine ⟨fun hab => ?_, fun hst => (partsBelow_encode hs ht hst).lt⟩
  by_contra hst
  rcases List.le_iff_lt_or_eq.1 (List.not_lt.1 hst) with hts | rfl
  · exact List.lt_asymm hab (partsBelow_encode ht hs hts).lt
  · cases hs.symm.trans ht
    exact List.lt_irrefl a hab

/-- A string ends where its terminator is, so no other encoded string goes on from it. -/
theorem eq_of_encode_isPrefix (hs : encode s = .ok a) (ht : encode t = .ok b) (hp : a <+: b) :
    a = b := by
  by_contra hab
  have hne : s ≠ t := by
    rintro rfl
    exact hab (Except.ok.inj (hs.symm.trans ht))
  have hparts : Parts a b := by
    by_cases hst : s < t
    · exact .inl (partsBelow_encode hs ht hst)
    · have hts := (List.le_iff_lt_or_eq.1 (List.not_lt.1 hst)).resolve_right fun he => hne he.symm
      exact .inr (partsBelow_encode ht hs hts)
  exact hparts.not_isPrefix hp

/-! ## Integers -/

theorem length_ofUInt64 (n : UInt64) : (ofUInt64 n).length = 8 :=
  length_bigEndian 8 n.toNat

theorem number_ofUInt64 (n : UInt64) : number (ofUInt64 n) = n.toNat :=
  number_bigEndian n.toNat_lt

theorem check_ofUInt64 (n : UInt64) : check (ofUInt64 n) = .ok () := by
  refine check_eq_ok_iff.2 ⟨fun he => ?_, ?_⟩
  · have := length_ofUInt64 n
    rw [he] at this
    cases this
  · rw [length_ofUInt64]
    decide

theorem ofUInt64_inj : ofUInt64 m = ofUInt64 n ↔ m = n := by
  refine ⟨fun h => UInt64.toNat_inj.1 ?_, congrArg ofUInt64⟩
  rw [← number_ofUInt64, h, number_ofUInt64]

theorem ofUInt64_lt_iff : ofUInt64 m < ofUInt64 n ↔ m < n := by
  rw [← number_lt_iff (by rw [length_ofUInt64, length_ofUInt64]), number_ofUInt64, number_ofUInt64,
    UInt64.lt_iff_toNat_lt]

theorem toUInt64?_eq_some_iff : toUInt64? key = some n ↔ key = ofUInt64 n := by
  rw [toUInt64?]
  constructor
  · intro h
    obtain ⟨hlen, hn⟩ := Option.ite_none_right_eq_some.1 h
    have hlt : number key < 2 ^ 64 := by
      have := number_lt key
      rwa [hlen] at this
    rw [← Option.some.inj hn, ofUInt64, UInt64.toNat_ofNat_of_lt' hlt, ← hlen, bigEndian_number]
  · rintro rfl
    rw [if_pos (length_ofUInt64 n), number_ofUInt64, UInt64.ofNat_toNat]

/-- All integers are encoded in the same length. -/
theorem eq_of_ofUInt64_isPrefix (hp : ofUInt64 m <+: ofUInt64 n) : m = n :=
  ofUInt64_inj.1 (hp.eq_of_length (by rw [length_ofUInt64, length_ofUInt64]))

/-! ## Both encodings -/

/-- Integers are read back from their keys and from no others, and stand in the order of the keys.
Strings that can be encoded do so, too, and no key of one begins the key of another; a string that
cannot be encoded has a terminator inside, of which the first is reported, or, without one, is
too long. -/
theorem encodings_keep_order :
    (∀ m n : UInt64, toUInt64? (ofUInt64 m) = some m ∧ (m < n ↔ ofUInt64 m < ofUInt64 n) ∧
      (ofUInt64 m <+: ofUInt64 n → m = n)) ∧
    (∀ key n, toUInt64? key = some n ↔ key = ofUInt64 n) ∧
    (∀ s : List UInt8,
      ((∃ reason, encode s = .error reason) ↔ 0 ∈ s ∨ 4096 ≤ s.length) ∧
      (∀ position, encode s = .error (.interiorTerminator position) ↔
        s[position]? = some 0 ∧ ∀ i < position, s[i]? ≠ some 0) ∧
      ∀ size, encode s = .error (.tooLong size) ↔
        0 ∉ s ∧ 4096 ≤ s.length ∧ size = ⟨s.length + 1, 4096⟩) ∧
    ∀ s t a b, encode s = .ok a → encode t = .ok b →
      (s < t ↔ a < b) ∧ (a <+: b → s = t) ∧ decode? a = some s ∧ check a = .ok () := by
  refine ⟨fun m n => ⟨toUInt64?_eq_some_iff.2 rfl, ofUInt64_lt_iff.symm, eq_of_ofUInt64_isPrefix⟩,
    fun key n => toUInt64?_eq_some_iff, fun s => ?_, fun s t a b hs ht => ?_⟩
  · exact ⟨encode_eq_error_iff, fun _ => encode_eq_interiorTerminator_iff,
      fun _ => encode_eq_tooLong_iff⟩
  · have hdecode : decode? a = some s := decode?_eq_some_iff.2 (encode_eq_ok_iff.1 hs).2.2
    refine ⟨(encode_lt_iff hs ht).symm, fun hp => ?_, hdecode, check_encode hs⟩
    -- Equal keys are read back as equal strings.
    rw [eq_of_encode_isPrefix hs ht hp, decode?_eq_some_iff.2 (encode_eq_ok_iff.1 ht).2.2] at hdecode
    exact (Option.some.inj hdecode).symm

/-- A string and one that goes on from it: in order, but neither key begins the other. -/
theorem ab_abc_keep_order :
    ([97, 98, 0] : Key) < [97, 98, 99, 0] ∧ ¬ ([97, 98, 0] : Key) <+: [97, 98, 99, 0] ∧
      decode? [97, 98, 0] = some [97, 98] ∧ check [97, 98, 0] = .ok () := by
  obtain ⟨-, -, -, hstrings⟩ := encodings_keep_order
  obtain ⟨hlt, hbegins, hdecode, hcheck⟩ :=
    hstrings [97, 98] [97, 98, 99] [97, 98, 0] [97, 98, 99, 0] rfl rfl
  exact ⟨hlt.1 (by decide), fun hp => absurd (hbegins hp) (by decide), hdecode, hcheck⟩

end AdaptiveRadix.Key
