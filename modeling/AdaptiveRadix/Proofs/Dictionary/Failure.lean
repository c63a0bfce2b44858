/-
Calls that fail. What a call may refuse it refuses before its first change: a string without a key,
an id that stands for nothing, strings out of order, ids that have run out. Nothing that comes after
the first change can fail, so a failed call leaves the dictionary as it was. Only strings that are
inserted in turn stay when one of them is refused, and then just those before it.
-/
import AdaptiveRadix.Proofs.Dictionary.Issued

namespace AdaptiveRadix.Dictionary

/-- The outcome of a call on a dictionary that leaves the dictionary as it was, should it be an error. -/
def AllOrNothing {α : Type} (dict : Dictionary) (done : Attempt α) : Prop :=
  ∀ reason, done.answer = .error reason → done.state = dict

/-- Strings that are inserted one after the other come in up to some position, and the one there is
refused by the dictionary that the strings before it have led to. -/
def StopsAt (dict : Dictionary) (strings : List (List UInt8)) (reason : DictionaryError)
    (reached : Dictionary) : Prop :=
  ∃ (position : Nat) (s : List UInt8) (added : List Added), strings[position]? = some s ∧
    dict.run ((strings.take position).map .insert) =
      (added.map fun answer => .added (.ok answer), reached) ∧
    (reached.insert s).answer = .error reason

variable {α β : Type} {dict : Dictionary} {ledger : Ledger} {s : List UInt8} {key : Key}
  {reason : DictionaryError}

namespace AllOrNothing

variable {done : Attempt α}

theorem unchanged (dict : Dictionary) (answer : Except DictionaryError α) :
    dict.AllOrNothing (.unchanged dict answer) :=
  fun _ _ => rfl

theorem of_ok {answer : α} (h : done.answer = .ok answer) : dict.AllOrNothing done := by
  intro reason herror
  rw [h] at herror
  cases herror

theorem map (h : dict.AllOrNothing done) (f : α → β) :
    dict.AllOrNothing (done.map (Except.map f)) := by
  intro reason herror
  simp only [Outcome.map] at herror ⊢
  cases hanswer : done.answer with
  | error reason => exact h reason hanswer
  | ok answer =>
    rw [hanswer] at herror
    cases herror

/-- What changes nothing itself can be followed by what is all or nothing. -/
theorem andThen {f : Dictionary → α → Attempt β} (hstate : done.state = dict)
    (hrest : ∀ answer, done.answer = .ok answer → dict.AllOrNothing (f dict answer)) :
    dict.AllOrNothing (done.andThen f) := by
  intro reason herror
  simp only [Outcome.andThen] at herror ⊢
  cases hanswer : done.answer with
  | error reason => exact hstate
  | ok answer =>
    simp only [hanswer, hstate] at herror ⊢
    exact hrest answer hanswer reason herror

end AllOrNothing

/-! ## What comes before the first change -/

theorem answer_encode_eq_ok (h : (dict.encode s).answer = .ok key) : Key.encode s = .ok key := by
  unfold encode at h
  split at h
  · next key' hs =>
    simp only [Outcome.unchanged, Except.ok.injEq] at h
    rw [hs, h]
  · cases h

/-! ## The calls -/

namespace Keeps

theorem allOrNothing_insertNew (h : dict.Keeps ledger) (hs : Key.encode s = .ok key)
    (hnew : ledger.ids[s]? = none) : dict.AllOrNothing (dict.insertNew s key) := by
  by_cases hroom : ledger.next < UInt64.size
  · have hdone := h.insertNew hs hnew
    rw [if_pos hroom] at hdone
    exact .of_ok hdone.answer
  · unfold Dictionary.insertNew
    rw [h.nextId?_eq, if_neg hroom]
    exact .unchanged dict _

theorem allOrNothing_insert (h : dict.Keeps ledger) (s : List UInt8) :
    dict.AllOrNothing (dict.insert s) := by
  unfold Dictionary.insert
  refine .andThen (state_encode dict s) fun key hkey => ?_
  have hs := answer_encode_eq_ok hkey
  rw [h.idOf?_eq hs]
  cases hid : ledger.ids[s]? with
  | some id => exact .unchanged dict _
  | none => exact (h.allOrNothing_insertNew hs hid).map Added.fresh

/-- Once the old string is gone, the other one is new and has an id to get. -/
theorem allOrNothing_update (h : dict.Keeps ledger) (id : UInt64) (s : List UInt8) :
    dict.AllOrNothing (dict.update id s) := by
  unfold Dictionary.update
  refine .andThen (state_encode dict s) fun key hkey => ?_
  have hs := answer_encode_eq_ok hkey
  rw [h.lookupString?_eq]
  cases hcurrent : ledger.strings[id]? with
  | none => exact .unchanged dict _
  | some current =>
    by_cases heq : current = s
    · simp only [if_pos heq]
      exact .unchanged dict _
    simp only [if_neg heq]
    rw [h.idOf?_eq hs]
    cases hid : ledger.ids[s]? with
    | some other => exact .of_ok rfl
    | none =>
      simp only [h.nextId?_eq]
      by_cases hroom : ledger.next < UInt64.size
      · simp only [if_pos hroom, Option.isNone_some, Bool.false_eq_true, if_false]
        have hids := Ledger.getElem?_ids_removeId hcurrent heq
        rw [hid] at hids
        have hdone := (h.updateFresh id hs hids).answer
        have hnext : (ledger.removeId id).2.next < UInt64.size := by
          rwa [Ledger.removeId, hcurrent]
        simp only [Ledger.insert, hs, hids, if_pos hnext] at hdone
        exact .of_ok hdone
      · simp only [if_neg hroom, Option.isNone_none, if_true]
        exact .unchanged dict _

theorem allOrNothing_bulkLoad (h : dict.Keeps ledger) (strings : List (List UInt8)) :
    dict.AllOrNothing (dict.bulkLoad strings) := by
  rcases h.bulkLoad_cases strings with ⟨_, -, -, hstate⟩ | ⟨-, -, -, hanswer, -⟩
  · exact fun _ _ => hstate
  · exact .of_ok hanswer

/-- Strings that are inserted in turn stay inserted up to the first that is refused. -/
theorem stopsAt_insertEach (h : dict.Keeps ledger) {strings : List (List UInt8)}
    (herror : (dict.insertEach strings).answer = .error reason) :
    dict.StopsAt strings reason (dict.insertEach strings).state := by
  induction strings generalizing dict ledger with
  | nil => cases herror
  | cons s strings ih =>
    unfold Dictionary.insertEach at herror ⊢
    simp only [Outcome.andThen] at herror ⊢
    cases hanswer : (dict.insert s).answer with
    | error other =>
      simp only [hanswer, Except.error.injEq] at herror ⊢
      subst herror
      have hstate := h.allOrNothing_insert s other hanswer
      rw [hstate]
      exact ⟨0, s, [], rfl, rfl, hanswer⟩
    | ok answer =>
      simp only [hanswer, Outcome.map] at herror ⊢
      cases hrest : ((dict.insert s).state.insertEach strings).answer with
      | ok answers =>
        rw [hrest] at herror
        cases herror
      | error other =>
        rw [hrest] at herror
        cases herror
        obtain ⟨position, t, added, ht, hrun, hrefused⟩ := ih (h.insert s).keeps hrest
        refine ⟨position + 1, t, answer :: added, ht, ?_, hrefused⟩
        rw [List.take_succ_cons, List.map_cons, Dictionary.run]
        simp only [Dictionary.call, Outcome.map, hrun, hanswer, List.map_cons]

end Keeps

/-- After any run, an insertion, an update and a bulk load that fail leave the dictionary as it was,
and a bulk insertion that fails leaves it as the strings before the one that is refused do. -/
theorem run_fails (config : Config) (calls : List DictionaryCall) :
    let dict := ((empty config).run calls).2
    (∀ s reason, (dict.insert s).answer = .error reason → (dict.insert s).state = dict) ∧
    (∀ id s reason, (dict.update id s).answer = .error reason → (dict.update id s).state = dict) ∧
    (∀ strings reason, (dict.bulkLoad strings).answer = .error reason →
      (dict.bulkLoad strings).state = dict) ∧
    ∀ strings reason, (dict.bulkInsert strings).answer = .error reason →
      dict.StopsAt strings reason (dict.bulkInsert strings).state := by
  intro dict
  have h := ((keeps_empty config).run calls).2
  refine ⟨h.allOrNothing_insert, h.allOrNothing_update, h.allOrNothing_bulkLoad,
    fun strings reason herror => ?_⟩
  simp only [bulkInsert, Outcome.andThen] at herror ⊢
  cases hanswer : (dict.insertEach strings).answer with
  | error other =>
    simp only [hanswer, Except.error.injEq] at herror ⊢
    subst herror
    exact h.stopsAt_insertEach hanswer
  | ok answers =>
    rw [hanswer] at herror
    cases herror

/-- Two strings have taken the last two ids. A string in the place of one of them has no id to get, so
the string that it was to replace is kept; and of three strings the first two are known. -/
theorem last_ids_taken :
    let dict := ((empty { firstId := .ofNat (UInt64.size - 2) }).run [.bulkLoad [[97], [98]]]).2
    (dict.insert [98, 0]).state = dict ∧
      (dict.update (.ofNat (UInt64.size - 2)) [99]).state = dict ∧
      (dict.bulkLoad [[99]]).state = dict ∧
      dict.StopsAt [[98], [97], [99]] .idsExhausted (dict.bulkInsert [[98], [97], [99]]).state := by
  obtain ⟨hinsert, hupdate, hload, hbulk⟩ :=
    run_fails { firstId := .ofNat (UInt64.size - 2) } [.bulkLoad [[97], [98]]]
  exact ⟨hinsert _ (.key (.key (.interiorTerminator 1))) (by cbv), hupdate _ _ .idsExhausted (by cbv),
    hload _ .notEmpty (by cbv), hbulk _ _ (by cbv)⟩

end AdaptiveRadix.Dictionary
