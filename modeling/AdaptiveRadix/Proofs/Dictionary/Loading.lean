/-
Strings that are loaded in bulk. Loading judges all of them before it adds one, with their keys in
the place of the strings; what it finds wrong first is what is wrong with the first string that has
a fault of its own. Strings without fault are all new, so loading leaves out the search that an
insertion begins with, and yet leads to the same dictionary.
-/
import AdaptiveRadix.Proofs.Dictionary.Failure

namespace AdaptiveRadix

/-- The number of ids that are not assigned yet. -/
def Store.left (store : Store) : Nat :=
  UInt64.size - (store.firstId.toNat + store.assigned)

/-- What is wrong with the string at a position, where strings are to be in strictly ascending order:
it has no key, or is not greater than the one before it. -/
def faultAt? (strings : List (List UInt8)) (position : Nat) : Option DictionaryError :=
  strings[position]?.bind fun s =>
    match Key.encode s with
    | .error reason => some (.key (.key reason))
    | .ok _ =>
      if position ≠ 0 ∧ strings[position - 1]?.any (s ≤ ·) then some (.unsorted position) else none

theorem faultAt?_of_length_le {strings : List (List UInt8)} {position : Nat}
    (h : strings.length ≤ position) : faultAt? strings position = none := by
  rw [faultAt?, List.getElem?_eq_none h, Option.bind_none]

/-- A scan that carries the string before goes by the faults of the strings one by one. -/
theorem Ledger.firstFault_eq_findSome? (done strings : List (List UInt8)) :
    firstFault done.length done.getLast? strings =
      (List.range' done.length strings.length).findSome? (faultAt? (done ++ strings)) := by
  induction strings generalizing done with
  | nil => rfl
  | cons s strings ih =>
    have hs : (done ++ s :: strings)[done.length]? = some s := by simp
    have hprevious : (done.length ≠ 0 ∧ ((done ++ s :: strings)[done.length - 1]?).any (s ≤ ·)) ↔
        done.getLast?.any (s ≤ ·) := by
      cases hdone : done.getLast? with
      | none =>
        rw [List.getLast?_eq_none_iff] at hdone
        simp [hdone]
      | some p =>
        obtain ⟨init, rfl⟩ := List.getLast?_eq_some_iff.1 hdone
        simp
    have hrest := ih (done ++ [s])
    rw [List.append_assoc, List.singleton_append, List.length_append, List.length_singleton,
      List.getLast?_concat] at hrest
    rw [firstFault, List.length_cons, List.range'_succ, List.findSome?_cons, faultAt?, hs,
      Option.bind_some]
    cases hkey : Key.encode s with
    | error reason => rfl
    | ok key =>
      simp only [hprevious]
      by_cases hle : done.getLast?.any (s ≤ ·)
      · simp only [hle, if_true]
      · simp only [hle, Bool.false_eq_true, if_false]
        exact hrest

theorem Ledger.firstFault_eq_some {strings : List (List UInt8)} {position : Nat}
    {reason : DictionaryError} (h : faultAt? strings position = some reason)
    (hfirst : ∀ earlier < position, faultAt? strings earlier = none) :
    firstFault 0 none strings = some reason := by
  have hlt : position < strings.length := by
    by_contra hge
    rw [faultAt?_of_length_le (Nat.le_of_not_lt hge)] at h
    cases h
  obtain ⟨rest, hrest⟩ := Nat.exists_eq_add_of_lt hlt
  refine (firstFault_eq_findSome? [] strings).trans (List.findSome?_eq_some_iff.2 ?_)
  refine ⟨List.range' 0 position, position, List.range' (position + 1) rest, ?_, h, ?_⟩
  · rw [List.length_nil, hrest, Nat.add_assoc, ← List.range'_append_1, Nat.zero_add,
      List.range'_succ]
  · intro earlier hmem
    exact hfirst earlier (by simpa using hmem)

theorem Ledger.firstFault_eq_none {strings : List (List UInt8)}
    (h : ∀ position, faultAt? strings position = none) : firstFault 0 none strings = none := by
  refine (firstFault_eq_findSome? [] strings).trans ?_
  rw [List.nil_append, List.findSome?_eq_none_iff]
  exact fun position _ => h position

theorem Ledger.firstFault_ne_notEmpty (position : Nat) (previous : Option (List UInt8))
    (strings : List (List UInt8)) : firstFault position previous strings ≠ some .notEmpty := by
  induction strings generalizing position previous with
  | nil => simp [firstFault]
  | cons s strings ih =>
    unfold firstFault
    split
    · simp
    split
    · simp
    · exact ih (position + 1) (some s)

namespace Dictionary

variable {dict : Dictionary} {ledger : Ledger} {s : List UInt8} {key : Key}
  {strings : List (List UInt8)}

namespace Keeps

/-- The insertion of a string that is not there adds it as a new one. -/
theorem insert_new (h : dict.Keeps ledger) (hs : Key.encode s = .ok key)
    (hnew : ledger.ids[s]? = none) :
    (dict.insert s).answer = (dict.insertNew s key).answer.map .fresh ∧
      (dict.insert s).state = (dict.insertNew s key).state := by
  unfold Dictionary.insert encode
  simp only [hs, Outcome.andThen, Outcome.unchanged, h.idOf?_eq hs, hnew, Outcome.map]
  exact ⟨trivial, trivial⟩

/-- Strings that are all new come to the same when they are inserted in turn, and get the next ids. -/
theorem run_insertNewEach (h : dict.Keeps ledger)
    (hroom : ledger.next + strings.length ≤ UInt64.size)
    (hencode : ∀ s ∈ strings, ∃ key, Key.encode s = .ok key)
    (hnew : ∀ s ∈ strings, ledger.ids[s]? = none) (hnodup : strings.Nodup) :
    dict.run (strings.map .insert) =
      ((List.range' ledger.next strings.length).map fun id => .added (.ok (.fresh (.ofNat id))),
        (dict.insertNewEach (strings.zip (strings.map (· ++ [Key.terminator])))).state) := by
  induction strings generalizing dict ledger with
  | nil => rfl
  | cons s strings ih =>
    rw [List.length_cons] at hroom
    obtain ⟨hs, hnodup⟩ := List.nodup_cons.1 hnodup
    obtain ⟨⟨key, hkey⟩, hencode⟩ := List.forall_mem_cons.1 hencode
    obtain ⟨hfresh, hnew⟩ := List.forall_mem_cons.1 hnew
    obtain rfl := (Key.encode_eq_ok_iff.1 hkey).2.2
    obtain ⟨hanswer, hstate⟩ := h.insert_new hkey hfresh
    have hdone := h.insertNew hkey hfresh
    rw [if_pos (by omega)] at hdone
    have hkeeps : (dict.insertNew s (s ++ [Key.terminator])).state.Keeps (ledger.assign s) :=
      hdone.keeps
    have hnext : (ledger.assign s).next = ledger.next + 1 := rfl
    have hlater : ∀ t ∈ strings, (ledger.assign s).ids[t]? = none := by
      intro t ht
      rw [Ledger.getElem?_ids_assign, if_neg (ne_of_mem_of_not_mem ht hs), hnew t ht]
    have hrest := ih hkeeps (by omega) hencode hlater hnodup
    simp only [List.map_cons, List.zip_cons_cons, Dictionary.run, Dictionary.call, Outcome.map,
      Dictionary.insertNewEach, Outcome.andThen, hanswer, hstate, hdone.answer, hrest, hnext,
      List.length_cons, List.range'_succ, Except.map]

/-- Strings that an empty dictionary loads get the next ids, and the dictionary is the one that the
insertions of the strings lead to. -/
theorem bulkLoad_eq_run (h : dict.Keeps ledger) (hempty : ledger.ids.isEmpty)
    (hfault : Ledger.firstFault 0 none strings = none)
    (hroom : strings = [] ∨ ledger.next + strings.length ≤ UInt64.size) :
    (dict.bulkLoad strings).answer = .ok strings.length ∧
      dict.run (strings.map .insert) =
        ((List.range strings.length).map fun i =>
            .added (.ok (.fresh (.ofNat ledger.next + .ofNat i))),
          (dict.bulkLoad strings).state) := by
  have hanswer := (h.bulkLoad strings).answer
  simp only [Ledger.bulkLoad, hempty, Bool.not_true, Bool.false_eq_true, if_false, hfault,
    if_pos hroom] at hanswer
  refine ⟨hanswer, ?_⟩
  rcases h.bulkLoad_cases strings with ⟨reason, -, herror, -⟩ | ⟨-, -, -, -, hstate⟩
  · rw [hanswer] at herror
    cases herror
  rw [hstate]
  rcases hroom with rfl | hroom
  · rfl
  obtain ⟨hencode, hchain⟩ := Ledger.firstFault_eq_none_iff.1 hfault
  have hascending : strings.Pairwise (· < ·) := List.isChain_iff_pairwise.1 hchain
  have hnew : ∀ s ∈ strings, ledger.ids[s]? = none :=
    fun s _ => Std.TreeMap.getElem?_of_isEmpty hempty
  rw [h.run_insertNewEach hroom hencode hnew hascending.nodup, List.range'_eq_map_range,
    List.map_map]
  simp only [Function.comp_def, UInt64.ofNat_add]

/-! What the answer of a bulk load comes to, one way to fail after the other. -/

theorem isEmpty_ids_iff (h : dict.Keeps ledger) : ledger.ids.isEmpty ↔ ∀ s, ¬ dict.contains s := by
  rw [Std.TreeMap.isEmpty_iff_forall_not_mem]
  refine forall_congr' fun s => ?_
  rw [h.shows.contains, Std.TreeMap.contains_iff_mem]

theorem room_iff (h : dict.Keeps ledger) (strings : List (List UInt8)) :
    strings = [] ∨ ledger.next + strings.length ≤ UInt64.size ↔
      strings = [] ∨ strings.length ≤ dict.store.left := by
  rw [Store.left, h.next]
  by_cases hnil : strings = []
  · simp only [hnil, true_or]
  · have hpos := List.length_pos_iff.2 hnil
    simp only [hnil, false_or]
    omega

theorem bulkLoad_eq_notEmpty_iff (h : dict.Keeps ledger) (strings : List (List UInt8)) :
    (dict.bulkLoad strings).answer = .error .notEmpty ↔ ¬ ledger.ids.isEmpty := by
  rw [(h.bulkLoad strings).answer, Ledger.bulkLoad]
  by_cases hempty : ledger.ids.isEmpty
  swap
  · simp [hempty]
  simp only [hempty, Bool.not_true, Bool.false_eq_true, if_false, not_true_eq_false, iff_false]
  have hne := Ledger.firstFault_ne_notEmpty 0 none strings
  cases hfault : Ledger.firstFault 0 none strings with
  | some reason =>
    rw [hfault] at hne
    exact fun he => hne (congrArg some (Except.error.inj he))
  | none =>
    dsimp only
    split <;> simp

theorem bulkLoad_of_fault (h : dict.Keeps ledger) (hempty : ledger.ids.isEmpty)
    {reason : DictionaryError} (hfault : Ledger.firstFault 0 none strings = some reason) :
    (dict.bulkLoad strings).answer = .error reason := by
  rw [(h.bulkLoad strings).answer, Ledger.bulkLoad]
  simp only [hempty, Bool.not_true, Bool.false_eq_true, if_false, hfault]

theorem bulkLoad_eq_idsExhausted_iff (h : dict.Keeps ledger) (hempty : ledger.ids.isEmpty)
    (hfault : Ledger.firstFault 0 none strings = none) :
    (dict.bulkLoad strings).answer = .error .idsExhausted ↔
      ¬ (strings = [] ∨ ledger.next + strings.length ≤ UInt64.size) := by
  rw [(h.bulkLoad strings).answer, Ledger.bulkLoad]
  simp only [hempty, Bool.not_true, Bool.false_eq_true, if_false, hfault]
  split
  · next hroom => exact iff_of_false (by simp) (not_not.2 hroom)
  · next hroom => exact iff_of_true rfl hroom

end Keeps

/-- After any run, a bulk load fails for a dictionary that has a string, else for the first fault of
the strings, else when there are more strings than ids are left. Otherwise it answers how many the
strings are, and the dictionary is the one that their insertions lead to, each of which adds a new
string, with the next ids in the order of the strings. -/
theorem run_loads (config : Config) (calls : List DictionaryCall) (strings : List (List UInt8)) :
    let dict := ((empty config).run calls).2
    let done := dict.bulkLoad strings
    (done.answer = .error .notEmpty ↔ ∃ s, dict.contains s) ∧
    ((∀ s, ¬ dict.contains s) →
      (∀ position reason, faultAt? strings position = some reason →
        (∀ earlier < position, faultAt? strings earlier = none) → done.answer = .error reason) ∧
      ((∀ position, faultAt? strings position = none) →
        (done.answer = .error .idsExhausted ↔
          strings ≠ [] ∧ dict.store.left < strings.length) ∧
        (strings = [] ∨ strings.length ≤ dict.store.left →
          done.answer = .ok strings.length ∧
          ∃ first, (strings = [] ∨ dict.store.nextId? = some first) ∧
            dict.run (strings.map .insert) =
              ((List.range strings.length).map fun i => .added (.ok (.fresh (first + .ofNat i))),
                done.state)))) := by
  intro dict done
  obtain ⟨ledger, h⟩ : ∃ ledger, dict.Keeps ledger := ⟨_, ((keeps_empty config).run calls).2⟩
  refine ⟨?_, fun hnone => ?_⟩
  · rw [h.bulkLoad_eq_notEmpty_iff strings, h.isEmpty_ids_iff, not_forall_not]
  have hempty := h.isEmpty_ids_iff.2 hnone
  refine ⟨fun position reason hfault hfirst => ?_, fun hfault => ?_⟩
  · exact h.bulkLoad_of_fault hempty (Ledger.firstFault_eq_some hfault hfirst)
  have hfault := Ledger.firstFault_eq_none hfault
  refine ⟨?_, fun hroom => ?_⟩
  · rw [h.bulkLoad_eq_idsExhausted_iff hempty hfault, h.room_iff, not_or, Nat.not_le]
  have hroom := (h.room_iff strings).2 hroom
  obtain ⟨hok, hrun⟩ := h.bulkLoad_eq_run hempty hfault hroom
  refine ⟨hok, .ofNat ledger.next, ?_, hrun⟩
  by_cases hnil : strings = []
  · exact .inl hnil
  · have hpos := List.length_pos_iff.2 hnil
    have hlast := hroom.resolve_left hnil
    rw [h.nextId?_eq, if_pos (by omega)]
    exact .inr rfl

/-- A dictionary that has lost its only string loads three strings in order, with the ids from 2 to 4,
but not four of which the third is less than the second and the fourth has no key. -/
theorem emptied_loads :
    let dict := ((empty {}).run [.insert [120], .remove [120]]).2
    (dict.bulkLoad [[97], [98], [97, 98], [0]]).answer = .error (.unsorted 2) ∧
      ∃ first, dict.store.nextId? = some first ∧
        dict.run [.insert [97], .insert [97, 98], .insert [98]] =
          ([0, 1, 2].map fun i => .added (.ok (.fresh (first + .ofNat i))),
            (dict.bulkLoad [[97], [97, 98], [98]]).state) := by
  intro dict
  have hnone : ∀ s, ¬ dict.contains s := by
    intro s hs
    have hempty := (run_loads {} [.insert [120], .remove [120]] []).1.2 ⟨s, hs⟩
    exact absurd hempty (by decide +kernel)
  obtain ⟨-, hunsorted⟩ :=
    run_loads {} [.insert [120], .remove [120]] [[97], [98], [97, 98], [0]]
  obtain ⟨-, hload⟩ := run_loads {} [.insert [120], .remove [120]] [[97], [97, 98], [98]]
  refine ⟨(hunsorted hnone).1 2 (.unsorted 2) (by decide) (by decide), ?_⟩
  have hfault : ∀ position, faultAt? [[97], [97, 98], [98]] position = none := by
    intro position
    by_cases hlt : position < 3
    · revert position
      decide
    · exact faultAt?_of_length_le (Nat.le_of_not_lt hlt)
  obtain ⟨-, first, hfirst, hrun⟩ := ((hload hnone).2 hfault).2 (.inr (by decide +kernel))
  exact ⟨first, hfirst.resolve_left (by simp), hrun⟩

end Dictionary

end AdaptiveRadix
