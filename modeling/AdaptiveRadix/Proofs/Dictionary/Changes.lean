/-
Calls that change a dictionary, each against what the ledger says of it. A new string goes into the
store before either index sees it, and a removed one can be loaded after both have lost it, so at
every insertion and erasure the store resolves what the index by string holds.
-/
import AdaptiveRadix.Proofs.Dictionary.Keeps

namespace AdaptiveRadix.Dictionary

variable {α β : Type} {dict : Dictionary} {ledger : Ledger} {s : List UInt8} {key : Key}
  {id : UInt64}

/-- An outcome answers as wanted and keeps the ledger that is to be left. -/
structure Follows (done : Change α) (wanted : α × Ledger) : Prop where
  answer : done.answer = wanted.1
  keeps : done.state.Keeps wanted.2

namespace Follows

variable {done : Change α} {wanted : α × Ledger}

theorem map (h : Follows done wanted) (f : α → β) :
    Follows (done.map f) (f wanted.1, wanted.2) :=
  ⟨congrArg f h.answer, h.keeps⟩

/-- What comes after a success need only follow the ledger that the success has left. -/
theorem andThen {done : Attempt α} {answer : α} {f : Dictionary → α → Attempt β}
    {wanted : Except DictionaryError β × Ledger} (h : Follows done (.ok answer, ledger))
    (hrest : ∀ dict : Dictionary, dict.Keeps ledger → Follows (f dict answer) wanted) :
    Follows (done.andThen f) wanted := by
  obtain ⟨hanswer, hkeeps⟩ := hrest done.state h.keeps
  simp only [Outcome.andThen, h.answer]
  exact ⟨hanswer, hkeeps⟩

theorem andThen_error {done : Attempt α} {reason : DictionaryError}
    (h : Follows done (.error reason, ledger)) (f : Dictionary → α → Attempt β) :
    Follows (done.andThen f) (.error reason, ledger) := by
  simp only [Outcome.andThen, h.answer]
  exact ⟨rfl, h.keeps⟩

end Follows

theorem keeps_empty (config : Config) : (empty config).Keeps (.empty config.firstId) where
  valid := Ledger.valid_empty config.firstId
  store := Store.valid_empty config.firstId
  next := rfl
  found id := by
    have hslot : (Store.empty config.firstId).slot? id = none :=
      Option.eq_none_iff_forall_ne_some.2 fun slot hs =>
        absurd (Store.slot?_eq_some_iff.1 hs).2.2 (Nat.not_lt_zero slot)
    simp [empty, Ledger.empty, Store.get?, hslot]
  byString := by
    have hnone : stringContents (Ledger.empty config.firstId).ids = fun _ => none :=
      funext (stringContents_eq_none_iff.2 rfl)
    exact hnone ▸ .empty _ config.policy
  byId := by
    have hnone : idContents (Ledger.empty config.firstId).strings = fun _ => none := by
      funext key
      refine Option.eq_none_iff_forall_ne_some.2 fun id hid => ?_
      exact absurd (idContents_eq_some_iff.1 hid).2 (by simp [Ledger.empty])
    exact hnone ▸ .empty _ config.policy

/-! ## The two indexes -/

theorem indexString_eq (dict : Dictionary)
    (h : dict.byString.Holds dict.store.load (stringContents ledger.ids))
    (hvalid : ledger.Valid) (hs : Key.encode s = .ok key) (hload : dict.store.load id = key) :
    ∃ byString events, dict.indexString key id = ⟨{ dict with byString }, .ok (), events⟩ ∧
      byString.Holds dict.store.load (stringContents (ledger.ids.insert s id)) := by
  have hclash : ¬ (stringContents ledger.ids).Clash key := by
    rintro ⟨other, ho, hne, hp⟩
    obtain ⟨v, hv⟩ := Option.ne_none_iff_exists'.1 ho
    obtain ⟨t, rfl, ht⟩ := stringContents_eq_some_iff.1 hv
    have ht := hvalid.encodes t v ht
    rcases hp with hp | hp
    · exact hne (Key.eq_of_encode_isPrefix ht hs hp)
    · exact hne (Key.eq_of_encode_isPrefix hs ht hp).symm
  rcases h.insert_cases hload with ⟨_, hcheck, -⟩ | ⟨-, hcl, -⟩ | ⟨-, -, hanswer, hholds⟩
  · cases hcheck.symm.trans (Key.check_encode hs)
  · exact absurd hcl hclash
  · refine ⟨(dict.byString.insert dict.store.load key id).state,
      (dict.byString.insert dict.store.load key id).events.map .index, ?_, ?_⟩
    · rw [indexString, hanswer]
      rfl
    · rw [stringContents_insert, ← (Key.encode_eq_ok_iff.1 hs).2.2]
      exact hholds

theorem indexId_eq (dict : Dictionary) (h : dict.byId.Holds idKey (idContents ledger.strings))
    (id : UInt64) (s : List UInt8) :
    ∃ byId events, dict.indexId id = ⟨{ dict with byId }, .ok (), events⟩ ∧
      byId.Holds idKey (idContents (ledger.strings.insert id s)) := by
  have hclash : ¬ (idContents ledger.strings).Clash (idKey id) := by
    rintro ⟨other, ho, hne, hp⟩
    obtain ⟨v, hv⟩ := Option.ne_none_iff_exists'.1 ho
    obtain ⟨rfl, -⟩ := idContents_eq_some_iff.1 hv
    refine hne (Key.ofUInt64_inj.2 ?_)
    rcases hp with hp | hp
    · exact Key.eq_of_ofUInt64_isPrefix hp
    · exact (Key.eq_of_ofUInt64_isPrefix hp).symm
  rcases h.insert_cases (rfl : idKey id = idKey id) with
    ⟨_, hcheck, -⟩ | ⟨-, hcl, -⟩ | ⟨-, -, hanswer, hholds⟩
  · cases hcheck.symm.trans (Key.check_ofUInt64 id)
  · exact absurd hcl hclash
  · refine ⟨(dict.byId.insert idKey (idKey id) id).state,
      (dict.byId.insert idKey (idKey id) id).events.map .index, ?_, ?_⟩
    · rw [indexId, hanswer]
      rfl
    · rw [idContents_insert]
      exact hholds

/-- A new string is pushed on the store and then indexed twice. -/
theorem insertNew_eq {next : UInt64} {dict₁ dict₂ : Dictionary} {events₁ events₂ : List Notice}
    (hnext : dict.store.nextId? = some next)
    (h₁ : indexString { dict with store := (dict.store.push s).2 } key (dict.store.push s).1 =
      ⟨dict₁, .ok (), events₁⟩)
    (h₂ : dict₁.indexId (dict.store.push s).1 = ⟨dict₂, .ok (), events₂⟩) :
    dict.insertNew s key = ⟨dict₂, .ok (dict.store.push s).1, events₁ ++ events₂⟩ := by
  rw [insertNew, hnext]
  rcases hp : dict.store.push s with ⟨id, store⟩
  rw [hp] at h₁ h₂
  simp only [h₁, Outcome.andThen, h₂]
  rfl

namespace Keeps

theorem unchanged (h : dict.Keeps ledger) (answer : α) :
    Follows (.unchanged dict answer) (answer, ledger) :=
  ⟨rfl, h⟩

/-! ## New strings -/

theorem id_push (h : dict.Keeps ledger) (s : List UInt8) :
    (dict.store.push s).1 = .ofNat ledger.next := by
  rw [h.next, UInt64.ofNat_add, UInt64.ofNat_toNat]
  rfl

theorem nextId?_eq (h : dict.Keeps ledger) :
    dict.store.nextId? = if ledger.next < UInt64.size then some (.ofNat ledger.next) else none := by
  rw [Store.nextId?, ← h.next, ← h.id_push []]
  rfl

/-- The string of a new id is no string that the index by string has read before. -/
theorem byString_push (h : dict.Keeps ledger) (hroom : ledger.next < UInt64.size)
    (s : List UInt8) :
    dict.byString.Holds (dict.store.push s).2.load (stringContents ledger.ids) := by
  refine h.byString.congr fun k v hv => ?_
  obtain ⟨t, -, ht⟩ := stringContents_eq_some_iff.1 hv
  have hne : v ≠ (dict.store.push s).1 := by
    intro heq
    rw [h.valid.inverse, heq, h.id_push, h.valid.next_free hroom] at ht
    cases ht
  rw [Store.load_push h.store (h.next ▸ hroom), Function.update_of_ne hne]
  exact h.byString.resolve k v hv

/-- While an id is left, a string that is not there comes into the store and both indexes take its id. -/
theorem insertNew_eq_ok (h : dict.Keeps ledger) (hs : Key.encode s = .ok key)
    (hroom : ledger.next < UInt64.size) :
    ∃ byString byId events,
      dict.insertNew s key = ⟨{ dict with store := (dict.store.push s).2, byString, byId },
        .ok (.ofNat ledger.next), events⟩ ∧
      byString.Holds (dict.store.push s).2.load
        (stringContents (ledger.ids.insert s (.ofNat ledger.next))) ∧
      byId.Holds idKey (idContents (ledger.strings.insert (.ofNat ledger.next) s)) := by
  have hload : (dict.store.push s).2.load (dict.store.push s).1 = key := by
    rw [Store.load_push h.store (h.next ▸ hroom), Function.update_self,
      (Key.encode_eq_ok_iff.1 hs).2.2]
  obtain ⟨byString, events₁, hdone₁, hholds₁⟩ :=
    indexString_eq { dict with store := (dict.store.push s).2 } (h.byString_push hroom s)
      h.valid hs hload
  obtain ⟨byId, events₂, hdone₂, hholds₂⟩ :=
    indexId_eq { dict with store := (dict.store.push s).2, byString } h.byId
      (dict.store.push s).1 s
  rw [h.id_push] at hholds₁ hholds₂
  refine ⟨byString, byId, events₁ ++ events₂, ?_, hholds₁, hholds₂⟩
  rw [insertNew_eq (h.nextId?_eq.trans (if_pos hroom)) hdone₁ hdone₂, h.id_push]

/-- A string that is not there gets the next id, if there is one. -/
theorem insertNew (h : dict.Keeps ledger) (hs : Key.encode s = .ok key)
    (hnew : ledger.ids[s]? = none) :
    Follows (dict.insertNew s key)
      (if ledger.next < UInt64.size then (.ok (.ofNat ledger.next), ledger.assign s)
        else (.error .idsExhausted, ledger)) := by
  by_cases hroom : ledger.next < UInt64.size
  · rw [if_pos hroom]
    have hroom' : dict.store.firstId.toNat + dict.store.assigned < UInt64.size := h.next ▸ hroom
    obtain ⟨byString, byId, events, hdone, hstrings, hids⟩ := h.insertNew_eq_ok hs hroom
    rw [hdone]
    refine ⟨rfl, ?_, h.store.push s, ?_, fun other => ?_, hstrings, hids⟩
    · exact h.valid.assign ((Key.encode_eq_ok_iff.1 hs).2.2 ▸ hs) hnew hroom
    · show ledger.next + 1 = dict.store.firstId.toNat + (dict.store.push s).2.assigned
      rw [Store.assigned_push, h.next, Nat.add_assoc]
    · show (dict.store.push s).2.get? other = _
      rw [Store.get?_push h.store hroom', h.id_push, Ledger.getElem?_strings_assign, ← h.found,
        Function.update_apply]
  · rw [if_neg hroom]
    unfold Dictionary.insertNew
    rw [h.nextId?_eq, if_neg hroom]
    exact h.unchanged _

/-! ## Removed strings -/

/-- Both indexes lose an id and the store hides its string. -/
theorem drop (h : dict.Keeps ledger) (hid : ledger.ids[s]? = some id) :
    (dict.eraseKey (s ++ [Key.terminator])).answer = some id ∧
      ((dict.eraseKey (s ++ [Key.terminator])).state.retire id).state.Keeps (ledger.drop id s) := by
  obtain ⟨hanswer, hstrings⟩ := h.byString.erase (s ++ [Key.terminator])
  have hids := (h.byId.erase (idKey id)).2
  rw [stringContents_concat, hid] at hanswer
  rw [← stringContents_erase] at hstrings
  rw [← idContents_erase] at hids
  have hload := Store.load_retire dict.store id
  refine ⟨hanswer, h.valid.drop hid, h.store.retire id, ?_, fun other => ?_, ?_, hids⟩
  · exact h.next.trans (by
      rw [eraseKey, retire, Store.firstId_retire, Store.assigned_retire])
  · show (dict.store.retire id).2.get? other = _
    rw [Store.get?_retire, Ledger.getElem?_strings_drop, Function.update_apply, h.found]
  · exact hload.symm ▸ hstrings

theorem remove (h : dict.Keeps ledger) (s : List UInt8) :
    Follows (dict.remove s) (ledger.remove s) := by
  unfold Dictionary.remove Ledger.remove
  cases hid : ledger.ids[s]? with
  | none =>
    cases hs : Key.encode s with
    | error reason => exact h.unchanged none
    | ok key =>
      have habsent : stringContents ledger.ids key = none := by
        rw [(Key.encode_eq_ok_iff.1 hs).2.2, stringContents_concat, hid]
      have hdone : dict.eraseKey key = .unchanged dict none := by
        rw [eraseKey, h.byString.erase_of_eq_none habsent]
        rfl
      simp only [hdone]
      exact h.unchanged none
  | some id =>
    obtain ⟨hanswer, hkeeps⟩ := h.drop hid
    rw [h.valid.encodes s id hid]
    simp only [hanswer]
    refine ⟨rfl, ?_⟩
    rw [Ledger.removeId, (h.valid.inverse s id).1 hid]
    exact hkeeps

theorem removeId (h : dict.Keeps ledger) (id : UInt64) :
    Follows (dict.removeId id) (ledger.removeId id) := by
  unfold Dictionary.removeId Ledger.removeId
  rw [h.lookupString?_eq]
  cases hs : ledger.strings[id]? with
  | none => exact h.unchanged none
  | some s =>
    have hid := (h.valid.inverse s id).2 hs
    simp only [h.valid.encodes s id hid]
    exact ⟨rfl, (h.drop hid).2⟩

/-! ## Strings to be added -/

theorem encode_of_ok (h : dict.Keeps ledger) (hs : Key.encode s = .ok key) :
    Follows (dict.encode s) (.ok key, ledger) := by
  unfold encode
  rw [hs]
  exact h.unchanged _

theorem encode_of_error {reason : KeyError} (h : dict.Keeps ledger)
    (hs : Key.encode s = .error reason) :
    Follows (dict.encode s) (.error (.key (.key reason)), ledger) := by
  unfold encode
  rw [hs]
  exact ⟨rfl, h⟩

/-- An insertion of a string that is not there. -/
theorem insertFresh (h : dict.Keeps ledger) (hs : Key.encode s = .ok key)
    (hnew : ledger.ids[s]? = none) :
    Follows ((dict.insertNew s key).map fun answer => answer.map Added.fresh)
      (ledger.insert s) := by
  have hdone := (h.insertNew hs hnew).map fun answer => answer.map Added.fresh
  simp only [Ledger.insert, hs, hnew]
  by_cases hroom : ledger.next < UInt64.size
  · rw [if_pos hroom] at hdone ⊢
    exact hdone
  · rw [if_neg hroom] at hdone ⊢
    exact hdone

theorem insert (h : dict.Keeps ledger) (s : List UInt8) :
    Follows (dict.insert s) (ledger.insert s) := by
  unfold Dictionary.insert
  cases hs : Key.encode s with
  | error reason =>
    simp only [Ledger.insert, hs]
    exact (h.encode_of_error hs).andThen_error _
  | ok key =>
    refine (h.encode_of_ok hs).andThen fun dict h => ?_
    rw [h.idOf?_eq hs]
    cases hid : ledger.ids[s]? with
    | some id =>
      simp only [Ledger.insert, hs, hid]
      exact h.unchanged _
    | none => exact h.insertFresh hs hid

/-- An insertion of a string that is not there when the string of an id is gone. -/
theorem updateFresh (h : dict.Keeps ledger) (id : UInt64) (hs : Key.encode s = .ok key)
    (hnew : (ledger.removeId id).2.ids[s]? = none) :
    Follows
      (((dict.removeId id).map Except.ok).andThen fun dict _ =>
        (dict.insertNew s key).map fun answer => answer.map Added.fresh)
      ((ledger.removeId id).2.insert s) :=
  ((h.removeId id).map Except.ok).andThen fun _ h => h.insertFresh hs hnew

/-- The string of an id goes first, and only when the other is sure to come in. -/
theorem update (h : dict.Keeps ledger) (id : UInt64) (s : List UInt8) :
    Follows (dict.update id s) (ledger.update id s) := by
  unfold Dictionary.update Ledger.update
  cases hs : Key.encode s with
  | error reason => exact (h.encode_of_error hs).andThen_error _
  | ok key =>
    refine (h.encode_of_ok hs).andThen fun dict h => ?_
    rw [h.lookupString?_eq]
    cases hcurrent : ledger.strings[id]? with
    | none => exact h.unchanged _
    | some current =>
      by_cases heq : current = s
      · simp only [if_pos heq]
        exact h.unchanged _
      have hids := Ledger.getElem?_ids_removeId hcurrent heq
      simp only [if_neg heq]
      rw [h.idOf?_eq hs]
      cases hid : ledger.ids[s]? with
      | some other =>
        rw [hid] at hids
        simp only [reduceCtorEq, false_and, if_false, Ledger.insert, hs, hids]
        exact (h.removeId id).map fun _ => Except.ok (Added.known other)
      | none =>
        rw [hid] at hids
        simp only [true_and, h.nextId?_eq]
        by_cases hroom : ledger.next < UInt64.size
        · simp only [if_pos hroom, if_neg (Nat.not_le.2 hroom), Option.isNone_some,
            Bool.false_eq_true, if_false]
          exact h.updateFresh id hs hids
        · simp only [if_neg hroom, if_pos (Nat.le_of_not_lt hroom), Option.isNone_none, if_true]
          exact h.unchanged _

end Keeps

end AdaptiveRadix.Dictionary
