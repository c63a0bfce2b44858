/-
The ids that a dictionary hands out. They are its first id and the ones after it, without a gap,
whatever calls have failed or removed something in between; and once an id has been handed out for
a string it never stands for another, nor does it come back after it is gone.
-/
import AdaptiveRadix.Proofs.Dictionary.Steps
import AdaptiveRadix.Proofs.Dictionary.Run

namespace AdaptiveRadix.Dictionary

/-- The id that a string was given, where the answer says that it was new. -/
def freshFor (s : List UInt8) : Except DictionaryError Added → List (UInt64 × List UInt8)
  | .ok (.fresh id) => [(id, s)]
  | .ok (.known _) | .error _ => []

/-- The ids given to strings that are inserted in turn, up to the first that is refused. They have been
given out also when one is refused and no ids are answered. -/
def freshEach (dict : Dictionary) : List (List UInt8) → List (UInt64 × List UInt8)
  | [] => []
  | s :: strings =>
    let done := dict.insert s
    match done.answer with
    | .error _ => []
    | .ok added => freshFor s (.ok added) ++ freshEach done.state strings

/-- The ids that a call hands out, in this order, each with the string that it is for. The strings of
a bulk load are asked for their ids afterwards. -/
def handsOut (dict : Dictionary) : DictionaryCall → List (UInt64 × List UInt8)
  | .insert s => freshFor s (dict.insert s).answer
  | .bulkInsert strings => dict.freshEach strings
  | .bulkLoad strings =>
    let done := dict.bulkLoad strings
    match done.answer with
    | .error _ => []
    | .ok _ => strings.filterMap fun s => (done.state.lookupId? s).map (·, s)
  | .update id s => freshFor s (dict.update id s).answer
  | .remove _ | .removeId _ => []

/-- The ids that are handed out in a run. -/
def handedOut (dict : Dictionary) : List DictionaryCall → List (UInt64 × List UInt8)
  | [] => []
  | c :: calls => dict.handsOut c ++ (dict.call c).state.handedOut calls

theorem run_append (dict : Dictionary) (calls later : List DictionaryCall) :
    (dict.run (calls ++ later)).2 = ((dict.run calls).2.run later).2 := by
  induction calls generalizing dict with
  | nil => rfl
  | cons c calls ih => exact ih (dict.call c).state

end AdaptiveRadix.Dictionary

namespace AdaptiveRadix.Ledger

open Dictionary (freshFor)

variable {ledger : Ledger}

theorem becomes_insert (ledger : Ledger) (s : List UInt8) :
    ledger.Becomes (freshFor s (ledger.insert s).1) (ledger.insert s).2 := by
  rcases ledger.insert_cases s with ⟨reason, hdone⟩ | ⟨id, -, hdone⟩ | ⟨-, -, hroom, hdone⟩
  · rw [hdone]
    exact .refl
  · rw [hdone]
    exact .refl
  · rw [hdone]
    exact .assign s .refl hroom

theorem becomes_removeId (ledger : Ledger) (id : UInt64) :
    ledger.Becomes [] (ledger.removeId id).2 := by
  rcases ledger.removeId_cases id with ⟨-, hdone⟩ | ⟨s, -, hdone⟩
  · rw [hdone]
    exact .refl
  · rw [hdone]
    exact .drop id s .refl

theorem Valid.becomes_remove (h : ledger.Valid) (s : List UInt8) :
    ledger.Becomes [] (ledger.remove s).2 := by
  rcases h.remove_cases s with hdone | ⟨id, -, hdone⟩
  · rw [hdone]
    exact .refl
  · rw [hdone]
    exact .drop id s .refl

theorem becomes_update (ledger : Ledger) (id : UInt64) (s : List UInt8) :
    ledger.Becomes (freshFor s (ledger.update id s).1) (ledger.update id s).2 := by
  rcases ledger.update_cases id s with ⟨reason, hdone⟩ | hdone | hdone
  · rw [hdone]
    exact .refl
  · rw [hdone]
    exact .refl
  · rw [hdone]
    exact (ledger.becomes_removeId id).trans (becomes_insert _ s)

theorem getElem?_ids_foldl_assign {strings : List (List UInt8)} {t : List UInt8}
    (ht : t ∉ strings) : (strings.foldl assign ledger).ids[t]? = ledger.ids[t]? := by
  induction strings generalizing ledger with
  | nil => rfl
  | cons s strings ih =>
    obtain ⟨hne, ht⟩ := List.ne_and_not_mem_of_not_mem_cons ht
    rw [List.foldl_cons, ih ht, getElem?_ids_assign, if_neg hne]

/-- Different strings that come in one after the other have the ids that were given out for them. -/
theorem becomes_foldl_assign {strings : List (List UInt8)} (hnodup : strings.Nodup)
    (hroom : strings = [] ∨ ledger.next + strings.length ≤ UInt64.size) :
    ledger.Becomes
      (strings.filterMap fun s => ((strings.foldl assign ledger).ids[s]?).map (·, s))
      (strings.foldl assign ledger) := by
  induction strings generalizing ledger with
  | nil => exact .refl
  | cons s strings ih =>
    obtain ⟨hs, hnodup⟩ := List.nodup_cons.1 hnodup
    have hlast := hroom.resolve_left (List.cons_ne_nil s strings)
    rw [List.length_cons] at hlast
    have hid : ((s :: strings).foldl assign ledger).ids[s]? = some (.ofNat ledger.next) := by
      rw [List.foldl_cons, getElem?_ids_foldl_assign hs, getElem?_ids_assign, if_pos rfl]
    rw [List.filterMap_cons, hid]
    refine Becomes.trans (.assign s .refl (by omega)) (ih hnodup (.inr ?_))
    show ledger.next + 1 + strings.length ≤ UInt64.size
    omega

end AdaptiveRadix.Ledger

namespace AdaptiveRadix.Dictionary

variable {dict : Dictionary} {ledger : Ledger} {s : List UInt8} {id : UInt64}

namespace Keeps

theorem becomes_freshEach (h : dict.Keeps ledger) (strings : List (List UInt8)) :
    ledger.Becomes (dict.freshEach strings) (ledger.bulkInsert strings).2 := by
  induction strings generalizing dict ledger with
  | nil => exact .refl
  | cons s strings ih =>
    obtain ⟨hanswer, hkeeps⟩ := h.insert s
    have hs := ledger.becomes_insert s
    rw [freshEach, Ledger.bulkInsert]
    simp only [hanswer]
    rcases hdone : ledger.insert s with ⟨reason | added, ledger'⟩
    · rw [hdone] at hs
      exact hs
    · rw [hdone] at hs hkeeps
      exact hs.trans (ih hkeeps)

theorem becomes_bulkLoad (h : dict.Keeps ledger) (strings : List (List UInt8)) :
    ledger.Becomes (dict.handsOut (.bulkLoad strings)) (ledger.bulkLoad strings).2 := by
  obtain ⟨hanswer, hkeeps⟩ := h.bulkLoad strings
  rw [handsOut]
  rcases ledger.bulkLoad_cases strings with
    ⟨reason, hdone⟩ | ⟨-, -, hascending, hroom, hdone⟩
  · rw [hdone] at hanswer ⊢
    simp only [hanswer]
    exact .refl
  · rw [hdone] at hanswer hkeeps ⊢
    simp only [hanswer, hkeeps.lookupId?_eq]
    exact Ledger.becomes_foldl_assign hascending.nodup hroom

/-- A call hands out the ids that the ledger gives out. -/
theorem becomes_call (h : dict.Keeps ledger) (c : DictionaryCall) :
    ledger.Becomes (dict.handsOut c) (ledger.call c).2 := by
  cases c with
  | insert s =>
    rw [handsOut, (h.insert s).answer]
    exact ledger.becomes_insert s
  | bulkInsert strings => exact h.becomes_freshEach strings
  | bulkLoad strings => exact h.becomes_bulkLoad strings
  | update id s =>
    rw [handsOut, (h.update id s).answer]
    exact ledger.becomes_update id s
  | remove s => exact h.valid.becomes_remove s
  | removeId id => exact ledger.becomes_removeId id

theorem becomes_run (h : dict.Keeps ledger) (calls : List DictionaryCall) :
    ledger.Becomes (dict.handedOut calls) (ledger.run calls).2 := by
  induction calls generalizing dict ledger with
  | nil => exact .refl
  | cons c calls ih => exact (h.becomes_call c).trans (ih (h.call c).keeps)

end Keeps

/-- The ids handed out in a run are the first one and those after it, without a gap. At every later
point an id stands for the string it was handed out for or for none, and if for none, then so
for ever. -/
theorem run_hands_out (config : Config) (calls : List DictionaryCall) :
    ((empty config).handedOut calls).map (·.1.toNat) =
        List.range' config.firstId.toNat ((empty config).handedOut calls).length ∧
      ∀ id s, (id, s) ∈ (empty config).handedOut calls → ∀ later,
        let before := ((empty config).run calls).2
        let after := ((empty config).run (calls ++ later)).2
        (after.lookupString? id = some s ∨ after.lookupString? id = none) ∧
          (before.lookupString? id = none → after.lookupString? id = none) := by
  have hbecomes := (keeps_empty config).becomes_run calls
  refine ⟨hbecomes.consecutive, fun id s hmem later => ?_⟩
  intro before after
  obtain ⟨hid, hbefore⟩ := hbecomes.of_mem_issued hmem
  have hkeeps := ((keeps_empty config).run calls).2
  have hafter := (hkeeps.becomes_run later).getElem?_strings hid
  rw [← hkeeps.lookupString?_eq, ← (hkeeps.run later).2.lookupString?_eq, ← run_append] at hafter
  rw [← hkeeps.lookupString?_eq] at hbefore
  constructor
  · rcases hafter with heq | hnone
    · exact heq ▸ hbefore
    · exact .inr hnone
  · intro hnone
    exact hafter.elim (·.trans hnone) fun hnone => hnone

example :
    (empty ⟨5, .pessimistic⟩).handedOut returning = [(5, [97]), (6, [98]), (7, [97])] := by
  cbv

end AdaptiveRadix.Dictionary
