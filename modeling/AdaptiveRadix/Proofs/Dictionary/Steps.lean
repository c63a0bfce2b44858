/-
What a call comes to in a ledger. Either nothing changes, or the ledger gives out new ids and drops old
ones, one after the other; each id that it gives out is the next one, so what was given out before
is never touched but by being dropped.
-/
import AdaptiveRadix.Proofs.Dictionary.Bulk

namespace AdaptiveRadix.Ledger

variable {ledger : Ledger} {s : List UInt8} {id : UInt64}

/-! ## The calls one by one -/

theorem insert_cases (ledger : Ledger) (s : List UInt8) :
    (∃ reason, ledger.insert s = (.error reason, ledger)) ∨
      (∃ id, ledger.ids[s]? = some id ∧ ledger.insert s = (.ok (.known id), ledger)) ∨
      (Key.encode s = .ok (s ++ [Key.terminator]) ∧ ledger.ids[s]? = none ∧
        ledger.next < UInt64.size ∧
        ledger.insert s = (.ok (.fresh (.ofNat ledger.next)), ledger.assign s)) := by
  unfold insert
  cases hs : Key.encode s with
  | error reason => exact .inl ⟨_, rfl⟩
  | ok key =>
    obtain rfl := (Key.encode_eq_ok_iff.1 hs).2.2
    cases hid : ledger.ids[s]? with
    | some id => exact .inr (.inl ⟨id, rfl, rfl⟩)
    | none =>
      by_cases hroom : ledger.next < UInt64.size
      · exact .inr (.inr ⟨rfl, rfl, hroom, by simp only [if_pos hroom]⟩)
      · exact .inl ⟨.idsExhausted, by simp only [if_neg hroom]⟩

theorem removeId_cases (ledger : Ledger) (id : UInt64) :
    (ledger.strings[id]? = none ∧ ledger.removeId id = (none, ledger)) ∨
      ∃ s, ledger.strings[id]? = some s ∧ ledger.removeId id = (some s, ledger.drop id s) := by
  unfold removeId
  cases hs : ledger.strings[id]? with
  | none => exact .inl ⟨rfl, rfl⟩
  | some s => exact .inr ⟨s, rfl, rfl⟩

theorem Valid.remove_cases (h : ledger.Valid) (s : List UInt8) :
    ledger.remove s = (none, ledger) ∨
      ∃ id, ledger.ids[s]? = some id ∧ ledger.remove s = (some id, ledger.drop id s) := by
  unfold remove
  cases hid : ledger.ids[s]? with
  | none => exact .inl rfl
  | some id =>
    refine .inr ⟨id, rfl, ?_⟩
    simp only [removeId, (h.inverse s id).1 hid]

theorem update_cases (ledger : Ledger) (id : UInt64) (s : List UInt8) :
    (∃ reason, ledger.update id s = (.error reason, ledger)) ∨
      ledger.update id s = (.ok (.known id), ledger) ∨
      ledger.update id s = (ledger.removeId id).2.insert s := by
  unfold update
  cases Key.encode s with
  | error reason => exact .inl ⟨_, rfl⟩
  | ok key =>
    cases ledger.strings[id]? with
    | none => exact .inl ⟨_, rfl⟩
    | some current =>
      dsimp only
      split
      · exact .inr (.inl rfl)
      split
      · exact .inl ⟨_, rfl⟩
      · exact .inr (.inr rfl)

/-- Strings that come in at once are all new, in order, and no more than there are ids for. -/
theorem bulkLoad_cases (ledger : Ledger) (strings : List (List UInt8)) :
    (∃ reason, ledger.bulkLoad strings = (.error reason, ledger)) ∨
      (ledger.ids.isEmpty ∧ (∀ s ∈ strings, ∃ key, Key.encode s = .ok key) ∧
        strings.Pairwise (· < ·) ∧ (strings = [] ∨ ledger.next + strings.length ≤ UInt64.size) ∧
        ledger.bulkLoad strings = (.ok strings.length, strings.foldl assign ledger)) := by
  unfold bulkLoad
  by_cases hempty : ledger.ids.isEmpty
  · simp only [hempty, Bool.not_true, Bool.false_eq_true, if_false]
    cases hfault : firstFault 0 none strings with
    | some reason => exact .inl ⟨reason, rfl⟩
    | none =>
      obtain ⟨hencode, hchain⟩ := firstFault_eq_none_iff.1 hfault
      by_cases hroom : strings = [] ∨ ledger.next + strings.length ≤ UInt64.size
      · rw [if_pos hroom]
        exact .inr ⟨trivial, hencode, List.isChain_iff_pairwise.1 hchain, hroom, rfl⟩
      · rw [if_neg hroom]
        exact .inl ⟨_, rfl⟩
  · simp only [hempty, Bool.not_false, if_true]
    exact .inl ⟨_, rfl⟩

/-! ## One change after the other -/

theorem ne_ofNat_of_lt {next : Nat} (hid : id.toNat < next) (hroom : next < UInt64.size) :
    id ≠ .ofNat next := by
  rintro rfl
  rw [UInt64.toNat_ofNat_of_lt' hroom] at hid
  exact Nat.lt_irrefl _ hid

/-- A ledger becomes another by giving out ids and dropping some. Beside them stand the ids that were
given out, in this order, each with its string. -/
inductive Becomes (ledger : Ledger) : List (UInt64 × List UInt8) → Ledger → Prop
  | refl : Becomes ledger [] ledger
  | assign {issued : List (UInt64 × List UInt8)} {later : Ledger} (s : List UInt8)
      (h : Becomes ledger issued later) (room : later.next < UInt64.size) :
      Becomes ledger (issued ++ [(.ofNat later.next, s)]) (later.assign s)
  | drop {issued : List (UInt64 × List UInt8)} {later : Ledger} (id : UInt64) (s : List UInt8)
      (h : Becomes ledger issued later) : Becomes ledger issued (later.drop id s)

namespace Becomes

variable {issued issued' : List (UInt64 × List UInt8)} {later later' : Ledger}

theorem trans (h : ledger.Becomes issued later) (h' : later.Becomes issued' later') :
    ledger.Becomes (issued ++ issued') later' := by
  induction h' with
  | refl => rwa [List.append_nil]
  | assign s _ room ih =>
    rw [← List.append_assoc]
    exact ih.assign s room
  | drop id s _ ih => exact ih.drop id s

theorem next_eq (h : ledger.Becomes issued later) : later.next = ledger.next + issued.length := by
  induction h with
  | refl => rfl
  | assign s _ _ ih =>
    rw [List.length_append, List.length_singleton, ← Nat.add_assoc, ← ih]
    rfl
  | drop id s _ ih => exact ih

/-- No more ids are given out than there are. -/
theorem next_le (h : ledger.Becomes issued later) (hle : ledger.next ≤ UInt64.size) :
    later.next ≤ UInt64.size := by
  induction h with
  | refl => exact hle
  | assign s _ room _ => exact room
  | drop id s _ ih => exact ih

/-- The ids that are given out are the next ones, without a gap. -/
theorem consecutive (h : ledger.Becomes issued later) :
    issued.map (·.1.toNat) = List.range' ledger.next issued.length := by
  induction h with
  | refl => rfl
  | assign s h room ih =>
    rw [List.map_append, ih, List.length_append, List.length_singleton, List.range'_concat,
      Nat.one_mul, ← h.next_eq, List.map_singleton, UInt64.toNat_ofNat_of_lt' room]
  | drop id s _ ih => exact ih

/-- What an id stood for before, it stands for afterwards, or for nothing. -/
theorem getElem?_strings (h : ledger.Becomes issued later) (hid : id.toNat < ledger.next) :
    later.strings[id]? = ledger.strings[id]? ∨ later.strings[id]? = none := by
  induction h with
  | refl => exact .inl rfl
  | assign s h room ih =>
    have hle := Nat.le.intro h.next_eq.symm
    rwa [getElem?_strings_assign, if_neg (ne_ofNat_of_lt (Nat.lt_of_lt_of_le hid hle) room)]
  | drop other s _ ih =>
    rw [getElem?_strings_drop]
    split
    · exact .inr rfl
    · exact ih

/-- An id that was given out stands for its string, or for nothing. -/
theorem of_mem_issued (h : ledger.Becomes issued later) (hmem : (id, s) ∈ issued) :
    id.toNat < later.next ∧ (later.strings[id]? = some s ∨ later.strings[id]? = none) := by
  induction h with
  | refl => cases hmem
  | assign t _ room ih =>
    rw [getElem?_strings_assign]
    rcases List.mem_append.1 hmem with hmem | hmem
    · obtain ⟨hlt, hs⟩ := ih hmem
      rw [if_neg (ne_ofNat_of_lt hlt room)]
      exact ⟨Nat.lt_succ_of_lt hlt, hs⟩
    · cases List.mem_singleton.1 hmem
      rw [if_pos rfl, UInt64.toNat_ofNat_of_lt' room]
      exact ⟨Nat.lt_succ_self _, .inl rfl⟩
  | drop other t _ ih =>
    obtain ⟨hlt, hs⟩ := ih hmem
    refine ⟨hlt, ?_⟩
    rw [getElem?_strings_drop]
    split
    · exact .inr rfl
    · exact hs

end Becomes

end AdaptiveRadix.Ledger
