/-
The last id. Whether a string can get an id is asked in three places, before a push, before an update
removes anything and before a bulk load; all three say no just when the ids up to the greatest
number have been handed out, those of removed strings included. What needs no new id goes on as
before.
-/
import AdaptiveRadix.Proofs.Dictionary.Issued
import AdaptiveRadix.Proofs.Dictionary.Pushes
import AdaptiveRadix.Proofs.Dictionary.StartingWith

namespace AdaptiveRadix.Dictionary

/-- What a dictionary answers, and leaves behind, where no new id is needed: searches of all kinds, a
string to be added that is present, and strings to be removed. -/
structure Serves (dict : Dictionary) (ledger : Ledger) : Prop where
  shows : dict.Shows ledger
  startingWith : ∀ start, ∃ entries, dict.Lists (start <+: · ++ [Key.terminator]) entries ∧
    dict.idsStartingWith start = entries.map Prod.fst ∧
    dict.rangeStartingWith? start = ends? (entries.map Prod.fst)
  insert : ∀ (s : List UInt8) (id : UInt64), ledger.ids[s]? = some id →
    dict.insert s = .unchanged dict (.ok (.known id))
  update : ∀ (id other : UInt64) (current s : List UInt8),
    ledger.strings[id]? = some current → ledger.ids[s]? = some other →
    (dict.update id s).answer = .ok (.known other) ∧
      (dict.update id s).state.Shows (if current = s then ledger else ledger.drop id current)
  remove : ∀ s : List UInt8, (dict.remove s).answer = ledger.ids[s]? ∧
    (dict.remove s).state.Shows (ledger.remove s).2
  removeId : ∀ id : UInt64, (dict.removeId id).answer = ledger.strings[id]? ∧
    (dict.removeId id).state.Shows (ledger.removeId id).2

variable {dict : Dictionary} {ledger : Ledger} {s : List UInt8} {key : Key} {id : UInt64}
  {strings : List (List UInt8)}

namespace Keeps

/-! ## With and without an id left -/

theorem answer_insert_new (h : dict.Keeps ledger) (hs : Key.encode s = .ok key)
    (hnew : ledger.ids[s]? = none) :
    (dict.insert s).answer =
      if ledger.next < UInt64.size then .ok (.fresh (.ofNat ledger.next))
      else .error .idsExhausted := by
  rw [(h.insert s).answer]
  simp only [Ledger.insert, hs, hnew]
  split <;> rfl

/-- An update asks for the id before it removes anything, but means the id after that. -/
theorem answer_update_new (h : dict.Keeps ledger) (hs : Key.encode s = .ok key)
    (hid : ledger.strings[id]? ≠ none) (hnew : ledger.ids[s]? = none) :
    (dict.update id s).answer =
      if ledger.next < UInt64.size then .ok (.fresh (.ofNat ledger.next))
      else .error .idsExhausted := by
  obtain ⟨current, hcurrent⟩ := Option.ne_none_iff_exists'.1 hid
  have hne : current ≠ s := by
    rintro rfl
    rw [← h.valid.inverse, hnew] at hcurrent
    cases hcurrent
  have hnext : (ledger.removeId id).2.next = ledger.next := by rw [Ledger.removeId, hcurrent]; rfl
  have hids := (Ledger.getElem?_ids_removeId hcurrent hne).trans hnew
  rw [(h.update id s).answer]
  simp only [Ledger.update, hs, hcurrent, if_neg hne, hnew, true_and]
  by_cases hroom : ledger.next < UInt64.size
  · simp only [if_neg (Nat.not_le.2 hroom), Ledger.insert, hs, hids, hnext, if_pos hroom]
  · simp only [if_pos (Nat.le_of_not_lt hroom), if_neg hroom]

theorem answer_bulkLoad_ordered (h : dict.Keeps ledger) (hempty : ledger.ids.isEmpty)
    (hne : strings ≠ []) (hencode : ∀ s ∈ strings, ∃ key, Key.encode s = .ok key)
    (hascending : strings.Pairwise (· < ·)) :
    (dict.bulkLoad strings).answer =
      if ledger.next + strings.length ≤ UInt64.size then .ok strings.length
      else .error .idsExhausted := by
  have hfault : Ledger.firstFault 0 none strings = none :=
    Ledger.firstFault_eq_none_iff.2 ⟨hencode, List.isChain_iff_pairwise.2 hascending⟩
  rw [(h.bulkLoad strings).answer]
  simp only [Ledger.bulkLoad, hempty, Bool.not_true, Bool.false_eq_true, if_false, hfault, hne,
    false_or]
  split <;> rfl

/-! ## Without a new id -/

theorem insert_known (h : dict.Keeps ledger) (hid : ledger.ids[s]? = some id) :
    dict.insert s = .unchanged dict (.ok (.known id)) := by
  have hs := h.valid.encodes s id hid
  rw [Dictionary.insert, andThen_encode hs, h.idOf?_eq hs, hid]

theorem update_known {other : UInt64} {current : List UInt8} (h : dict.Keeps ledger)
    (hcurrent : ledger.strings[id]? = some current) (hother : ledger.ids[s]? = some other) :
    Follows (dict.update id s)
      (.ok (.known other), if current = s then ledger else ledger.drop id current) := by
  have hs := h.valid.encodes s other hother
  have hupdate := h.update id s
  by_cases heq : current = s
  · have hsame : id = other := by
      rw [← h.valid.inverse, heq, hother] at hcurrent
      exact (Option.some.inj hcurrent).symm
    simp only [Ledger.update, hs, hcurrent, if_pos heq] at hupdate ⊢
    exact hsame ▸ hupdate
  · have hids := (Ledger.getElem?_ids_removeId hcurrent heq).trans hother
    simp only [Ledger.update, hs, hcurrent, if_neg heq, hother, reduceCtorEq, false_and, if_false,
      Ledger.insert, hids] at hupdate ⊢
    rwa [Ledger.removeId, hcurrent] at hupdate

theorem serves (h : dict.Keeps ledger) : dict.Serves ledger where
  shows := h.shows
  startingWith := h.startingWith
  insert _ _ := h.insert_known
  update _ _ _ _ hcurrent hother :=
    have hdone := h.update_known hcurrent hother
    ⟨hdone.answer, hdone.keeps.shows⟩
  remove s := by
    obtain ⟨hanswer, hkeeps⟩ := h.remove s
    refine ⟨hanswer.trans ?_, hkeeps.shows⟩
    rw [Ledger.remove]
    cases ledger.ids[s]? <;> rfl
  removeId id := by
    obtain ⟨hanswer, hkeeps⟩ := h.removeId id
    refine ⟨hanswer.trans ?_, hkeeps.shows⟩
    rw [Ledger.removeId]
    cases ledger.strings[id]? <;> rfl

end Keeps

/-! ## Runs -/

/-- The next id after a run is the first one and as many more as have been handed out. -/
theorem next_run (config : Config) (calls : List DictionaryCall) :
    ((Ledger.empty config.firstId).run calls).2.next =
      config.firstId.toNat + ((empty config).handedOut calls).length :=
  ((keeps_empty config).becomes_run calls).next_eq

/-- A run pushes one string for each id that it hands out. Each push finds one more id assigned than the
push before it, and the number it assigns does not wrap around. -/
theorem pushes_run (config : Config) (calls : List DictionaryCall) :
    (empty config).store.Pushed ((empty config).pushesOf calls)
        ((empty config).run calls).2.store ∧
      ((empty config).pushesOf calls).map Store.assigned =
        List.range ((empty config).handedOut calls).length ∧
      ∀ store ∈ (empty config).pushesOf calls,
        config.firstId.toNat + store.assigned < UInt64.size ∧
          ∀ s, (store.push s).1.toNat = config.firstId.toNat + store.assigned := by
  have hpushed := (keeps_empty config).pushed_run calls
  have hassigned : config.firstId.toNat + ((empty config).handedOut calls).length =
      config.firstId.toNat + (0 + ((empty config).pushesOf calls).length) := by
    rw [← next_run, ((keeps_empty config).run calls).2.next, hpushed.firstId_eq, hpushed.assigned_eq]
    rfl
  have hlength : ((empty config).pushesOf calls).length =
      ((empty config).handedOut calls).length := by omega
  refine ⟨hpushed, ?_, fun store hstore => ?_⟩
  · rw [hpushed.consecutive, hlength, List.range_eq_range']
    rfl
  · obtain ⟨hfirstId, hspare⟩ := hpushed.room hstore
    have heq : store.firstId.toNat = config.firstId.toNat := congrArg UInt64.toNat hfirstId
    rw [heq] at hspare
    exact ⟨hspare, fun s => heq ▸ Store.toNat_push (heq.symm ▸ hspare) s⟩

/-- After any run no more ids have been handed out than there are from the first one on. The store has
come about by one push for each of them, and no push has wrapped around. A string that needs a
new id gets the next one, or there is none left and the call says so; the same for strings
that are loaded together. All else goes on as ever. -/
theorem run_exhausts (config : Config) (calls : List DictionaryCall) :
    let dict := ((empty config).run calls).2
    let first := config.firstId.toNat
    let count := ((empty config).handedOut calls).length
    count ≤ UInt64.size - first ∧
    ((empty config).store.Pushed ((empty config).pushesOf calls) dict.store ∧
      ((empty config).pushesOf calls).map Store.assigned = List.range count ∧
      ∀ store ∈ (empty config).pushesOf calls, first + store.assigned < UInt64.size ∧
        ∀ s, (store.push s).1.toNat = first + store.assigned) ∧
    (∀ s key, Key.encode s = .ok key → ¬ dict.contains s →
      (dict.insert s).answer =
        if count < UInt64.size - first then .ok (.fresh (.ofNat (first + count)))
        else .error .idsExhausted) ∧
    (∀ id s key, Key.encode s = .ok key → dict.lookupString? id ≠ none → ¬ dict.contains s →
      (dict.update id s).answer =
        if count < UInt64.size - first then .ok (.fresh (.ofNat (first + count)))
        else .error .idsExhausted) ∧
    (∀ strings, dict.isEmpty → strings ≠ [] → (∀ s ∈ strings, ∃ key, Key.encode s = .ok key) →
      strings.Pairwise (· < ·) →
      (dict.bulkLoad strings).answer =
        if count + strings.length ≤ UInt64.size - first then .ok strings.length
        else .error .idsExhausted) ∧
    dict.Serves ((Ledger.empty config.firstId).run calls).2 := by
  intro dict first count
  have h := ((keeps_empty config).run calls).2
  have hfirst : first < UInt64.size := config.firstId.toNat_lt
  have hnext : ((Ledger.empty config.firstId).run calls).2.next = first + count :=
    next_run config calls
  have hle : first + count ≤ UInt64.size :=
    hnext ▸ ((keeps_empty config).becomes_run calls).next_le (Nat.le_of_lt hfirst)
  have hroom : count < UInt64.size - first ↔ first + count < UInt64.size := by omega
  have habsent : ∀ s, ¬ dict.contains s →
      ((Ledger.empty config.firstId).run calls).2.ids[s]? = none := by
    intro s hs
    rw [h.shows.contains, Bool.not_eq_true] at hs
    exact Std.TreeMap.getElem?_eq_none_of_contains_eq_false hs
  refine ⟨by omega, pushes_run config calls, fun s key hs hnew => ?_,
    fun id s key hs hid hnew => ?_, fun strings hempty hne hencode hascending => ?_, h.serves⟩
  · rw [h.answer_insert_new hs (habsent s hnew), hnext]
    simp only [hroom]
  · rw [h.lookupString?_eq] at hid
    rw [h.answer_update_new hs hid (habsent s hnew), hnext]
    simp only [hroom]
  · rw [h.shows.isEmpty] at hempty
    rw [h.answer_bulkLoad_ordered hempty hne hencode hascending, hnext]
    have hiff : count + strings.length ≤ UInt64.size - first ↔
        first + count + strings.length ≤ UInt64.size := by omega
    simp only [hiff]

/-- Of the last two ids both are handed out, and the greatest number is one of them; one of the strings
is removed, and neither a new string nor one in the place of the other gets an id. Where only
one id has been handed out, an empty dictionary loads one string, but not two. -/
theorem last_ids_handed_out :
    let config : Config := { firstId := .ofNat (UInt64.size - 2) }
    let full := ((empty config).run [.insert [97], .insert [98], .remove [97]]).2
    let spare := ((empty config).run [.insert [97], .remove [97]]).2
    full.insert [98] = .unchanged full (.ok (.known (.ofNat (UInt64.size - 1)))) ∧
      (full.insert [97]).answer = .error .idsExhausted ∧
      (full.update (.ofNat (UInt64.size - 1)) [97]).answer = .error .idsExhausted ∧
      (spare.insert [97]).answer = .ok (.fresh (.ofNat (UInt64.size - 1))) ∧
      (spare.bulkLoad [[97]]).answer = .ok 1 ∧
      (spare.bulkLoad [[97], [98]]).answer = .error .idsExhausted := by
  intro config full spare
  obtain ⟨-, -, hinsert, hupdate, -, hserves⟩ :=
    run_exhausts config [.insert [97], .insert [98], .remove [97]]
  obtain ⟨-, -, hlast, -, hload, -⟩ := run_exhausts config [.insert [97], .remove [97]]
  have habsent : ¬ full.contains [97] := by decide +kernel
  have habsent' : ¬ spare.contains [97] := by decide +kernel
  have hempty : spare.isEmpty := by decide +kernel
  refine ⟨hserves.insert _ _ (by decide +kernel), ?_, ?_, ?_, ?_, ?_⟩
  · exact (hinsert [97] [97, 0] (by decide) habsent).trans (by decide +kernel)
  · exact (hupdate _ [97] [97, 0] (by decide) (by decide +kernel) habsent).trans (by decide +kernel)
  · exact (hlast [97] [97, 0] (by decide) habsent').trans (by decide +kernel)
  · refine (hload [[97]] hempty (by decide) ?_ (by decide)).trans (by decide +kernel)
    exact List.forall_mem_singleton.2 ⟨[97, 0], by decide⟩
  · refine (hload [[97], [98]] hempty (by decide) ?_ (by decide)).trans (by decide +kernel)
    exact List.forall_mem_cons.2
      ⟨⟨[97, 0], by decide⟩, List.forall_mem_singleton.2 ⟨[98, 0], by decide⟩⟩

end AdaptiveRadix.Dictionary
