/-
Many strings at a time. Insertion in turn stops where the ledger stops. Strings that are to be
loaded are judged by their keys, which are in the order of the strings; once they are found in
order they are all new, and each gets the next id.
-/
import AdaptiveRadix.Proofs.Dictionary.Changes

namespace AdaptiveRadix

namespace Ledger

variable {ledger : Ledger} {s : List UInt8} {position : Nat} {previous : Option (List UInt8)}
  {strings : List (List UInt8)}

/-- Strings without fault have keys and ascend strictly, from the one before them on. -/
theorem firstFault_eq_none_iff :
    firstFault position previous strings = none ↔
      (∀ s ∈ strings, ∃ key, Key.encode s = .ok key) ∧
        (previous.toList ++ strings).IsChain (· < ·) := by
  induction strings generalizing position previous with
  | nil => cases previous <;> simp [firstFault]
  | cons s strings ih =>
    rw [firstFault]
    cases hs : Key.encode s with
    | error reason => simp [hs]
    | ok key =>
      cases previous with
      | none => simp [ih, hs]
      | some p =>
        by_cases hle : s ≤ p
        · simp [hle]
        · simp [hle, ih, hs, List.not_le.1 hle]

end Ledger

namespace Dictionary

variable {α β γ : Type} {dict : Dictionary} {ledger : Ledger} {s : List UInt8}

theorem map_andThen (done : Attempt α) (f : Dictionary → α → Attempt β) (g : β → γ) :
    (done.andThen f).map (Except.map g) =
      done.andThen fun dict answer => (f dict answer).map (Except.map g) := by
  simp only [Outcome.andThen]
  cases done.answer <;> rfl

theorem state_encode (dict : Dictionary) (s : List UInt8) : (dict.encode s).state = dict := by
  unfold encode
  split <;> rfl

theorem state_ascendingKeys (dict : Dictionary) (position : Nat) (previous : Option Key)
    (strings : List (List UInt8)) :
    (dict.ascendingKeys position previous strings).state = dict := by
  induction strings generalizing position previous with
  | nil => rfl
  | cons s strings ih =>
    unfold ascendingKeys
    simp only [Outcome.andThen, state_encode]
    split
    · rfl
    · dsimp only
      split
      · rfl
      · exact ih (position + 1) _

namespace Keeps

/-! ## Insertion in turn -/

theorem insertEach (h : dict.Keeps ledger) (strings : List (List UInt8)) :
    Follows ((dict.insertEach strings).map (Except.map (List.map Added.id)))
      (ledger.bulkInsert strings) := by
  induction strings generalizing dict ledger with
  | nil => exact h.unchanged _
  | cons s strings ih =>
    rw [Dictionary.insertEach, map_andThen, Ledger.bulkInsert]
    have hs := h.insert s
    rcases hdone : ledger.insert s with ⟨reason | added, ledger'⟩
    · rw [hdone] at hs
      exact hs.andThen_error _
    · rw [hdone] at hs
      refine hs.andThen fun dict h => ?_
      have hrest := (ih h).map (Except.map (added.id :: ·))
      refine ⟨Eq.trans ?_ hrest.answer, hrest.keeps⟩
      simp only [Outcome.map]
      cases (dict.insertEach strings).answer <;> rfl

theorem bulkInsert (h : dict.Keeps ledger) (strings : List (List UInt8)) :
    Follows (dict.bulkInsert strings) (ledger.bulkInsert strings) := by
  obtain ⟨hanswer, hkeeps⟩ := h.insertEach strings
  refine ⟨Eq.trans ?_ hanswer, ?_⟩
  · simp only [Dictionary.bulkInsert, Outcome.andThen, Outcome.map]
    cases (dict.insertEach strings).answer <;> rfl
  · simp only [Dictionary.bulkInsert, Outcome.andThen]
    cases (dict.insertEach strings).answer <;> exact hkeeps

/-! ## Strings in order -/

/-- The keys of two strings are in the order of the strings. -/
theorem any_key_le {key : Key} {previous : Option (List UInt8)} (hs : Key.encode s = .ok key)
    (hprevious : ∀ t ∈ previous, Key.encode t = .ok (t ++ [Key.terminator])) :
    (previous.map (· ++ [Key.terminator])).any (key ≤ ·) = previous.any (s ≤ ·) := by
  cases previous with
  | none => rfl
  | some t =>
    have hlt := Key.encode_lt_iff (hprevious t rfl) hs
    simpa using not_congr hlt

/-- The dictionary judges the keys, the ledger the strings. -/
theorem ascendingKeys (h : dict.Keeps ledger) (position : Nat) (previous : Option (List UInt8))
    (hprevious : ∀ s ∈ previous, Key.encode s = .ok (s ++ [Key.terminator]))
    (strings : List (List UInt8)) :
    Follows (dict.ascendingKeys position (previous.map (· ++ [Key.terminator])) strings)
      (match Ledger.firstFault position previous strings with
        | some reason => .error reason
        | none => .ok (strings.map (· ++ [Key.terminator])), ledger) := by
  induction strings generalizing dict position previous with
  | nil => exact h.unchanged _
  | cons s strings ih =>
    unfold Dictionary.ascendingKeys Ledger.firstFault
    cases hs : Key.encode s with
    | error reason => exact (h.encode_of_error hs).andThen_error _
    | ok key =>
      refine (h.encode_of_ok hs).andThen fun dict h => ?_
      rw [any_key_le hs hprevious]
      obtain rfl := (Key.encode_eq_ok_iff.1 hs).2.2
      by_cases hle : previous.any (s ≤ ·)
      · simp only [hle, if_true]
        exact h.unchanged _
      · simp only [hle, Bool.false_eq_true, if_false]
        have hrest := (ih h (position + 1) (some s) (by simpa using hs)).map
          (Except.map ((s ++ [Key.terminator]) :: ·))
        cases hfault : Ledger.firstFault (position + 1) (some s) strings with
        | some reason =>
          rw [hfault] at hrest
          exact hrest
        | none =>
          rw [hfault] at hrest
          exact hrest

/-- Strings that are all new get one id after the other. -/
theorem insertNewEach (h : dict.Keeps ledger) {strings : List (List UInt8)}
    (hroom : ledger.next + strings.length ≤ UInt64.size)
    (hencode : ∀ s ∈ strings, ∃ key, Key.encode s = .ok key)
    (hnew : ∀ s ∈ strings, ledger.ids[s]? = none) (hnodup : strings.Nodup) :
    Follows (dict.insertNewEach (strings.zip (strings.map (· ++ [Key.terminator]))))
      (.ok (), strings.foldl Ledger.assign ledger) := by
  induction strings generalizing dict ledger with
  | nil => exact h.unchanged _
  | cons s strings ih =>
    rw [List.length_cons] at hroom
    rw [List.map_cons, List.zip_cons_cons, Dictionary.insertNewEach, List.foldl_cons]
    obtain ⟨hs, hnodup⟩ := List.nodup_cons.1 hnodup
    obtain ⟨⟨key, hkey⟩, hencode⟩ := List.forall_mem_cons.1 hencode
    obtain ⟨hfresh, hnew⟩ := List.forall_mem_cons.1 hnew
    obtain rfl := (Key.encode_eq_ok_iff.1 hkey).2.2
    have hdone := h.insertNew hkey hfresh
    rw [if_pos (by omega)] at hdone
    refine hdone.andThen fun dict h => ih h ?_ hencode (fun t ht => ?_) hnodup
    · show ledger.next + 1 + strings.length ≤ UInt64.size
      omega
    · rw [Ledger.getElem?_ids_assign, if_neg, hnew t ht]
      rintro rfl
      exact hs ht

/-- Strings without fault come into an empty dictionary, if there are ids enough for all. -/
theorem insertOrdered (h : dict.Keeps ledger) {strings : List (List UInt8)}
    (hempty : ledger.ids.isEmpty) (hfault : Ledger.firstFault 0 none strings = none)
    (hroom : ledger.next + strings.length ≤ UInt64.size) :
    Follows (dict.insertNewEach (strings.zip (strings.map (· ++ [Key.terminator]))))
      (.ok (), strings.foldl Ledger.assign ledger) := by
  obtain ⟨hencode, hchain⟩ := Ledger.firstFault_eq_none_iff.1 hfault
  have hascending : strings.Pairwise (· < ·) := List.isChain_iff_pairwise.1 hchain
  refine h.insertNewEach hroom hencode ?_ hascending.nodup
  intro s _
  exact Std.TreeMap.getElem?_of_isEmpty hempty

/-- Something is refused, and the dictionary stays as it is; or the strings have no fault and ids enough
are left, nothing is refused any more, and each is added as a new one. -/
theorem bulkLoad_cases (h : dict.Keeps ledger) (strings : List (List UInt8)) :
    (∃ reason, ledger.bulkLoad strings = (.error reason, ledger) ∧
      (dict.bulkLoad strings).answer = .error reason ∧ (dict.bulkLoad strings).state = dict) ∨
    (ledger.ids.isEmpty ∧ Ledger.firstFault 0 none strings = none ∧
      (strings = [] ∨ ledger.next + strings.length ≤ UInt64.size) ∧
      (dict.bulkLoad strings).answer = .ok strings.length ∧
      (dict.bulkLoad strings).state =
        (dict.insertNewEach (strings.zip (strings.map (· ++ [Key.terminator])))).state) := by
  unfold Dictionary.bulkLoad Ledger.bulkLoad
  rw [h.shows.isEmpty]
  by_cases hempty : ledger.ids.isEmpty
  swap
  · simp only [hempty, Bool.not_false, if_true]
    exact .inl ⟨_, rfl, rfl, rfl⟩
  simp only [hempty, Bool.not_true, Bool.false_eq_true, if_false]
  have hjudged := (h.ascendingKeys 0 none nofun strings).answer
  rw [Option.map_none] at hjudged
  simp only [Outcome.andThen, state_ascendingKeys]
  cases hfault : Ledger.firstFault 0 none strings with
  | some reason =>
    rw [hfault] at hjudged
    simp only [hjudged]
    exact .inl ⟨reason, rfl, rfl, trivial⟩
  | none =>
    rw [hfault] at hjudged
    simp only [hjudged]
    by_cases hnil : strings = []
    · subst hnil
      exact .inr ⟨trivial, trivial, .inl rfl, rfl, rfl⟩
    have hpos := List.length_pos_iff.2 hnil
    simp only [List.isEmpty_eq_false_iff.2 hnil, hnil, Bool.false_eq_true, if_false, false_or]
    -- Only where there is a string is there a last id to ask for.
    rw [h.nextId?_eq]
    by_cases hroom : ledger.next + strings.length ≤ UInt64.size
    · have hlt : ledger.next < UInt64.size := by omega
      have hlast : ledger.next + (strings.length - 1) < UInt64.size := by omega
      have hloaded := h.insertOrdered hempty hfault hroom
      simp only [if_pos hlt, UInt64.toNat_ofNat_of_lt' hlt, if_pos hlast, hloaded.answer]
      exact .inr ⟨trivial, trivial, hroom, trivial, trivial⟩
    · refine .inl ⟨.idsExhausted, if_neg hroom, ?_⟩
      by_cases hlt : ledger.next < UInt64.size
      · have hlast : ¬ ledger.next + (strings.length - 1) < UInt64.size := by omega
        simp only [if_pos hlt, UInt64.toNat_ofNat_of_lt' hlt, if_neg hlast]
        exact ⟨rfl, rfl⟩
      · rw [if_neg hlt]
        exact ⟨rfl, rfl⟩

theorem bulkLoad (h : dict.Keeps ledger) (strings : List (List UInt8)) :
    Follows (dict.bulkLoad strings) (ledger.bulkLoad strings) := by
  rcases h.bulkLoad_cases strings with
    ⟨reason, hledger, hanswer, hstate⟩ | ⟨hempty, hfault, hroom, hanswer, hstate⟩
  · rw [hledger]
    refine ⟨hanswer, ?_⟩
    rw [hstate]
    exact h
  have hledger : ledger.bulkLoad strings =
      (.ok strings.length, strings.foldl Ledger.assign ledger) := by
    simp only [Ledger.bulkLoad, hempty, Bool.not_true, Bool.false_eq_true, if_false, hfault,
      if_pos hroom]
  rw [hledger]
  refine ⟨hanswer, ?_⟩
  rw [hstate]
  rcases hroom with rfl | hroom
  · exact h
  · exact (h.insertOrdered hempty hfault hroom).keeps

end Keeps

end Dictionary

end AdaptiveRadix
