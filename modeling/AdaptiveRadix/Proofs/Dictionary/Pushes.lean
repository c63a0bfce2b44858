/-
The pushes of a dictionary. A string is pushed on the store in one place only, behind the question for the
next id; here the stores that this happens to are listed, call by call. The list shows that each push
finds as many ids assigned as there were pushes before it, and that the id it assigns is no more
than the last one there is.
-/
import AdaptiveRadix.Proofs.Dictionary.Run

namespace AdaptiveRadix

namespace Store

/-- A store becomes another by new strings, each while an id is left, and by retired ids. Beside them
stand the stores that a string was pushed on. -/
inductive Pushed (store : Store) : List Store → Store → Prop
  | refl : Pushed store [] store
  | push {stores : List Store} {later : Store} (s : List UInt8) (h : Pushed store stores later)
      (room : later.firstId.toNat + later.assigned < UInt64.size) :
      Pushed store (stores ++ [later]) (later.push s).2
  | retire {stores : List Store} {later : Store} (id : UInt64) (h : Pushed store stores later) :
      Pushed store stores (later.retire id).2

namespace Pushed

variable {store later latest pushedOn : Store} {stores stores' : List Store}

theorem trans (h : store.Pushed stores later) (h' : later.Pushed stores' latest) :
    store.Pushed (stores ++ stores') latest := by
  induction h' with
  | refl => rwa [List.append_nil]
  | push s _ room ih =>
    rw [← List.append_assoc]
    exact ih.push s room
  | retire id _ ih => exact ih.retire id

theorem firstId_eq (h : store.Pushed stores later) : later.firstId = store.firstId := by
  induction h with
  | refl => rfl
  | push s _ _ ih => exact ih
  | retire id _ ih => exact (firstId_retire ..).trans ih

theorem assigned_eq (h : store.Pushed stores later) :
    later.assigned = store.assigned + stores.length := by
  induction h with
  | refl => rfl
  | push s _ _ ih => rw [assigned_push, ih, List.length_append, List.length_singleton, Nat.add_assoc]
  | retire id _ ih => exact (assigned_retire ..).trans ih

/-- Every push finds one more id assigned than the push before it. -/
theorem consecutive (h : store.Pushed stores later) :
    stores.map assigned = List.range' store.assigned stores.length := by
  induction h with
  | refl => rfl
  | push s h _ ih =>
    rw [List.map_append, ih, List.length_append, List.length_singleton, List.range'_concat,
      Nat.one_mul, ← h.assigned_eq, List.map_singleton]
  | retire id _ ih => exact ih

/-- Every push finds an id that is left. -/
theorem room (h : store.Pushed stores later) (hmem : pushedOn ∈ stores) :
    pushedOn.firstId = store.firstId ∧
      pushedOn.firstId.toNat + pushedOn.assigned < UInt64.size := by
  induction h with
  | refl => cases hmem
  | push s h room ih =>
    rcases List.mem_append.1 hmem with hmem | hmem
    · exact ih hmem
    · rw [List.mem_singleton.1 hmem]
      exact ⟨h.firstId_eq, room⟩
  | retire id _ ih => exact ih hmem

end Pushed

end Store

namespace Dictionary

/-! ## The stores that strings are pushed on -/

def pushesNew (dict : Dictionary) : List Store :=
  match dict.store.nextId? with
  | none => []
  | some _ => [dict.store]

def pushesInsert (dict : Dictionary) (s : List UInt8) : List Store :=
  match Key.encode s with
  | .error _ => []
  | .ok key =>
    match dict.idOf? key with
    | some _ => []
    | none => dict.pushesNew

def pushesEach (dict : Dictionary) : List (List UInt8) → List Store
  | [] => []
  | s :: strings =>
    let done := dict.insert s
    dict.pushesInsert s ++
      match done.answer with
      | .error _ => []
      | .ok _ => pushesEach done.state strings

def pushesNewEach (dict : Dictionary) : List (List UInt8 × Key) → List Store
  | [] => []
  | (s, key) :: strings =>
    let done := dict.insertNew s key
    dict.pushesNew ++
      match done.answer with
      | .error _ => []
      | .ok _ => pushesNewEach done.state strings

def pushesLoad (dict : Dictionary) (strings : List (List UInt8)) : List Store :=
  if !dict.isEmpty then []
  else match (dict.ascendingKeys 0 none strings).answer with
    | .error _ => []
    | .ok keys =>
      if strings.isEmpty then []
      else match dict.store.nextId? with
        | none => []
        | some first =>
          if first.toNat + (strings.length - 1) < UInt64.size then
            dict.pushesNewEach (strings.zip keys)
          else []

def pushesUpdate (dict : Dictionary) (id : UInt64) (s : List UInt8) : List Store :=
  match Key.encode s with
  | .error _ => []
  | .ok key =>
    match dict.lookupString? id with
    | none => []
    | some current =>
      if current = s then []
      else match dict.idOf? key with
        | some _ => []
        | none => if dict.store.nextId?.isNone then [] else (dict.removeId id).state.pushesNew

/-- The stores that a call pushes strings on, in this order. -/
def pushes (dict : Dictionary) : DictionaryCall → List Store
  | .insert s => dict.pushesInsert s
  | .bulkInsert strings => dict.pushesEach strings
  | .bulkLoad strings => dict.pushesLoad strings
  | .update id s => dict.pushesUpdate id s
  | .remove _ | .removeId _ => []

/-- The stores that strings are pushed on in a run. -/
def pushesOf (dict : Dictionary) : List DictionaryCall → List Store
  | [] => []
  | c :: calls => dict.pushes c ++ (dict.call c).state.pushesOf calls

/-! ## Every push is what it should be -/

variable {dict : Dictionary} {ledger : Ledger} {s : List UInt8} {key : Key} {id : UInt64}

theorem andThen_encode {α : Type} (hs : Key.encode s = .ok key) (f : Dictionary → Key → Attempt α) :
    (dict.encode s).andThen f = f dict key := by
  rw [encode, hs]
  rfl

theorem state_andThen_encode {α : Type} {reason : KeyError} (hs : Key.encode s = .error reason)
    (f : Dictionary → Key → Attempt α) : ((dict.encode s).andThen f).state = dict := by
  rw [encode, hs]
  rfl

theorem pushed_remove (dict : Dictionary) (s : List UInt8) :
    dict.store.Pushed [] (dict.remove s).state.store := by
  rw [remove]
  split
  · exact .refl
  dsimp only
  split
  · exact .refl
  · exact .retire _ .refl

theorem pushed_removeId (dict : Dictionary) (id : UInt64) :
    dict.store.Pushed [] (dict.removeId id).state.store := by
  rw [removeId]
  split
  · exact .refl
  split
  · exact .refl
  · exact .retire id .refl

namespace Keeps

theorem pushed_insertNew (h : dict.Keeps ledger) (hs : Key.encode s = .ok key) :
    dict.store.Pushed dict.pushesNew (dict.insertNew s key).state.store := by
  rw [pushesNew]
  by_cases hroom : ledger.next < UInt64.size
  · obtain ⟨_, _, _, hdone, -⟩ := h.insertNew_eq_ok hs hroom
    rw [hdone, h.nextId?_eq, if_pos hroom]
    exact .push s .refl (h.next ▸ hroom)
  · rw [Dictionary.insertNew, h.nextId?_eq, if_neg hroom]
    exact .refl

theorem pushed_insert (h : dict.Keeps ledger) (s : List UInt8) :
    dict.store.Pushed (dict.pushesInsert s) (dict.insert s).state.store := by
  rw [pushesInsert, Dictionary.insert]
  cases hs : Key.encode s with
  | error reason =>
    rw [state_andThen_encode hs]
    exact .refl
  | ok key =>
    rw [andThen_encode hs]
    dsimp only
    cases dict.idOf? key with
    | some id => exact .refl
    | none => exact h.pushed_insertNew hs

theorem pushed_insertEach (h : dict.Keeps ledger) (strings : List (List UInt8)) :
    dict.store.Pushed (dict.pushesEach strings) (dict.insertEach strings).state.store := by
  induction strings generalizing dict ledger with
  | nil => exact .refl
  | cons s strings ih =>
    have hs := h.pushed_insert s
    simp only [pushesEach, Dictionary.insertEach, Outcome.andThen]
    cases (dict.insert s).answer with
    | error reason =>
      rw [List.append_nil]
      exact hs
    | ok added => exact hs.trans (ih (h.insert s).keeps)

/-- Among strings that are all new no insertion is refused, so all of them are pushed. -/
theorem pushed_insertNewEach (h : dict.Keeps ledger) {strings : List (List UInt8)}
    (hencode : ∀ s ∈ strings, ∃ key, Key.encode s = .ok key)
    (hnew : ∀ s ∈ strings, ledger.ids[s]? = none) (hnodup : strings.Nodup) :
    dict.store.Pushed (dict.pushesNewEach (strings.zip (strings.map (· ++ [Key.terminator]))))
      (dict.insertNewEach (strings.zip (strings.map (· ++ [Key.terminator])))).state.store := by
  induction strings generalizing dict ledger with
  | nil => exact .refl
  | cons s strings ih =>
    obtain ⟨hs, hnodup⟩ := List.nodup_cons.1 hnodup
    obtain ⟨⟨key, hkey⟩, hencode⟩ := List.forall_mem_cons.1 hencode
    obtain ⟨hfresh, hnew⟩ := List.forall_mem_cons.1 hnew
    obtain rfl := (Key.encode_eq_ok_iff.1 hkey).2.2
    have hpushed := h.pushed_insertNew hkey
    have hdone := h.insertNew hkey hfresh
    simp only [List.map_cons, List.zip_cons_cons, pushesNewEach, Dictionary.insertNewEach,
      Outcome.andThen]
    by_cases hroom : ledger.next < UInt64.size
    · rw [if_pos hroom] at hdone
      simp only [hdone.answer]
      refine hpushed.trans (ih hdone.keeps hencode (fun t ht => ?_) hnodup)
      rw [Ledger.getElem?_ids_assign, if_neg (ne_of_mem_of_not_mem ht hs), hnew t ht]
    · rw [if_neg hroom] at hdone
      simp only [hdone.answer, List.append_nil]
      exact hpushed

theorem pushed_bulkLoad (h : dict.Keeps ledger) (strings : List (List UInt8)) :
    dict.store.Pushed (dict.pushesLoad strings) (dict.bulkLoad strings).state.store := by
  unfold pushesLoad Dictionary.bulkLoad
  rw [h.shows.isEmpty]
  by_cases hempty : ledger.ids.isEmpty
  swap
  · simp only [hempty, Bool.not_false, if_true]
    exact .refl
  have hjudged := (h.ascendingKeys 0 none (by simp) strings).answer
  rw [Option.map_none] at hjudged
  simp only [hempty, Bool.not_true, Bool.false_eq_true, if_false, Outcome.andThen,
    state_ascendingKeys]
  cases hfault : Ledger.firstFault 0 none strings with
  | some reason =>
    rw [hfault] at hjudged
    simp only [hjudged]
    exact .refl
  | none =>
    rw [hfault] at hjudged
    obtain ⟨hencode, hchain⟩ := Ledger.firstFault_eq_none_iff.1 hfault
    have hascending : strings.Pairwise (· < ·) := List.isChain_iff_pairwise.1 hchain
    have hpushed := h.pushed_insertNewEach hencode
      (fun s _ => Std.TreeMap.getElem?_of_isEmpty hempty) hascending.nodup
    simp only [hjudged]
    by_cases hnil : strings.isEmpty
    · simp only [hnil, if_true]
      exact .refl
    simp only [hnil, Bool.false_eq_true, if_false]
    cases dict.store.nextId? with
    | none => exact .refl
    | some first =>
      by_cases hlast : first.toNat + (strings.length - 1) < UInt64.size
      · simp only [if_pos hlast]
        cases (dict.insertNewEach (strings.zip (strings.map (· ++ [Key.terminator])))).answer with
        | error reason => exact hpushed
        | ok answer => exact hpushed
      · simp only [if_neg hlast]
        exact .refl

theorem pushed_update (h : dict.Keeps ledger) (id : UInt64) (s : List UInt8) :
    dict.store.Pushed (dict.pushesUpdate id s) (dict.update id s).state.store := by
  rw [pushesUpdate, Dictionary.update]
  cases hs : Key.encode s with
  | error reason =>
    rw [state_andThen_encode hs]
    exact .refl
  | ok key =>
    rw [andThen_encode hs]
    dsimp only
    cases dict.lookupString? id with
    | none => exact .refl
    | some current =>
      by_cases heq : current = s
      · simp only [if_pos heq]
        exact .refl
      simp only [if_neg heq]
      cases dict.idOf? key with
      | some other => exact dict.pushed_removeId id
      | none =>
        by_cases hnext : dict.store.nextId?.isNone
        · simp only [if_pos hnext]
          exact .refl
        · simp only [if_neg hnext]
          exact (dict.pushed_removeId id).trans ((h.removeId id).keeps.pushed_insertNew hs)

theorem pushed_call (h : dict.Keeps ledger) (c : DictionaryCall) :
    dict.store.Pushed (dict.pushes c) (dict.call c).state.store := by
  cases c with
  | insert s => exact h.pushed_insert s
  | bulkInsert strings =>
    have hpushed := h.pushed_insertEach strings
    simp only [Dictionary.call, Dictionary.bulkInsert, Outcome.andThen, Outcome.map]
    cases (dict.insertEach strings).answer with
    | error reason => exact hpushed
    | ok added => exact hpushed
  | bulkLoad strings => exact h.pushed_bulkLoad strings
  | update id s => exact h.pushed_update id s
  | remove s => exact dict.pushed_remove s
  | removeId id => exact dict.pushed_removeId id

/-- In a run every push finds an id that is left, and nothing but pushes assigns ids. -/
theorem pushed_run (h : dict.Keeps ledger) (calls : List DictionaryCall) :
    dict.store.Pushed (dict.pushesOf calls) (dict.run calls).2.store := by
  induction calls generalizing dict ledger with
  | nil => exact .refl
  | cons c calls ih => exact (h.pushed_call c).trans (ih (h.call c).keeps)

end Keeps

end Dictionary

end AdaptiveRadix
