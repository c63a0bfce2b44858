/-
An index that holds given contents. The tree fits the loader, its payloads are those of the
contents, each found at its key, and the kept length is their number. Every change of the index
is a change of the contents, or no change at all.
-/
import AdaptiveRadix.Index
import AdaptiveRadix.Proofs.Tree.Erase
import AdaptiveRadix.Proofs.Tree.Insert
import AdaptiveRadix.Proofs.Tree.Seek
import AdaptiveRadix.Proofs.Tree.Stats

namespace AdaptiveRadix

/-- What an ordered map from keys to payloads holds. -/
abbrev Contents := Key → Option UInt64

/-- A loader gives every payload of the contents the key it is held at. -/
def Contents.Resolve (contents : Contents) (load : Loader) : Prop :=
  ∀ key value, contents key = some value → load value = key

theorem Contents.Resolve.empty (load : Loader) : Contents.Resolve (fun _ => none) load := by
  intro key value hc
  cases hc

theorem Contents.Resolve.insert {contents : Contents} {load : Loader} {key : Key} {value : UInt64}
    (h : contents.Resolve load) (hkey : load value = key) :
    Contents.Resolve (Function.update contents key (some value)) load := by
  intro k v hc
  by_cases hk : k = key
  · rw [hk, Function.update_self] at hc
    exact Option.some.inj hc ▸ hkey.trans hk.symm
  · rw [Function.update_of_ne hk] at hc
    exact h k v hc

/-- Another key of the contents begins the given one, or goes on from it. -/
def Contents.Clash (contents : Contents) (key : Key) : Prop :=
  ∃ other, contents other ≠ none ∧ other ≠ key ∧ (other <+: key ∨ key <+: other)

namespace Index

variable {load load' : Loader} {index : Index} {contents : Contents} {key : Key}
  {value v : UInt64} {root : Tree}

/-- The payloads, as the tree lists them. -/
def leaves (index : Index) : List UInt64 :=
  index.root.elim [] Tree.toList

structure Holds (load : Loader) (index : Index) (contents : Contents) : Prop where
  fits : ∀ root, index.root = some root → root.Fits load []
  find : ∀ key value, contents key = some value ↔ value ∈ index.leaves ∧ load value = key
  length : index.length = index.leaves.length

theorem leaves_some (h : index.root = some root) : index.leaves = root.toList := by
  rw [leaves, h, Option.elim_some]

theorem leaves_none (h : index.root = none) : index.leaves = [] := by
  rw [leaves, h, Option.elim_none]

theorem stats_some (h : index.root = some root) : index.stats = root.stats := by
  rw [stats, h, Option.elim_some]

theorem stats_none (h : index.root = none) : index.stats = .zero := by
  rw [stats, h, Option.elim_none]

/-- The leaves that the statistics count are those that the tree lists. -/
theorem leaves_stats (index : Index) : index.stats.leaves = index.leaves.length := by
  cases hr : index.root with
  | none =>
    rw [stats_none hr, leaves_none hr]
    rfl
  | some root => rw [stats_some hr, leaves_some hr, Tree.leaves_stats]

theorem with_root (h : index.root = some root) : { index with root := some root } = index := by
  rw [← h]

/-! ## What an index that holds its contents shows -/

namespace Holds

theorem of_mem (h : index.Holds load contents) (hv : v ∈ index.leaves) :
    contents (load v) = some v :=
  (h.find _ _).2 ⟨hv, rfl⟩

theorem exists_leaf (h : index.Holds load contents) (hc : contents key ≠ none) :
    ∃ v ∈ index.leaves, load v = key := by
  obtain ⟨v, hv⟩ := Option.ne_none_iff_exists'.1 hc
  exact ⟨v, (h.find key v).1 hv⟩

theorem resolve (h : index.Holds load contents) : contents.Resolve load :=
  fun key value hc => ((h.find key value).1 hc).2

theorem eq_none_iff (h : index.Holds load contents) :
    contents key = none ↔ ∀ v ∈ index.leaves, load v ≠ key := by
  constructor
  · rintro hn v hv rfl
    cases hn.symm.trans (h.of_mem hv)
  · intro hne
    refine Option.eq_none_iff_forall_ne_some.2 fun v hc => ?_
    obtain ⟨hv, hk⟩ := (h.find key v).1 hc
    exact hne v hv hk

/-- Only the keys that the loader gives the payloads of the index matter. -/
theorem congr (h : index.Holds load contents) (hload : contents.Resolve load') :
    index.Holds load' contents := by
  have heq : ∀ v ∈ index.leaves, load v = load' v := fun v hv => (hload _ _ (h.of_mem hv)).symm
  refine ⟨fun root hr => (h.fits root hr).congr fun v hv => heq v ?_, fun key v => ?_, h.length⟩
  · rwa [leaves_some hr]
  · rw [h.find]
    exact and_congr_right fun hv => by rw [heq v hv]

/-- Keys of the contents are not empty, and none of them is too long. -/
theorem checked (h : index.Holds load contents) (hc : contents key = some v) :
    Key.check key = .ok () := by
  obtain ⟨hv, rfl⟩ := (h.find key v).1 hc
  cases hr : index.root with
  | none =>
    rw [leaves_none hr] at hv
    cases hv
  | some root =>
    rw [leaves_some hr] at hv
    exact (h.fits root hr).checked hv

theorem holder?_eq (h : index.Holds load contents) (hr : index.root = some root) (key : Key) :
    Tree.holder? load root key = contents key := by
  refine Option.ext fun v => ?_
  rw [(h.fits root hr).holder?_eq_some_iff, h.find, leaves_some hr]

theorem clashes_iff (h : index.Holds load contents) (hr : index.root = some root) :
    Tree.Clashes load root key ↔ contents.Clash key := by
  constructor
  · rintro ⟨v, hv, hne, hp⟩
    rw [← leaves_some hr] at hv
    exact ⟨load v, by rw [h.of_mem hv]; exact Option.some_ne_none v, hne, hp⟩
  · rintro ⟨other, ho, hne, hp⟩
    obtain ⟨v, hv, rfl⟩ := h.exists_leaf ho
    exact ⟨v, leaves_some hr ▸ hv, hne, hp⟩

theorem ascending (h : index.Holds load contents) :
    index.leaves.Pairwise fun v w => load v < load w := by
  cases hr : index.root with
  | none => rw [leaves_none hr]; exact .nil
  | some root =>
    rw [leaves_some hr]
    exact (h.fits root hr).ascending.imp fun hp => hp.lt

theorem payloads_eq (h : index.Holds load contents) : index.payloads = index.leaves := by
  cases hr : index.root with
  | none => rw [leaves_none hr, payloads, hr, Option.elim_none]
  | some root => rw [leaves_some hr, payloads, hr, Option.elim_some, (h.fits root hr).payloads_eq]

theorem minimum?_eq (h : index.Holds load contents) : index.minimum? = index.leaves.head? := by
  cases hr : index.root with
  | none => rw [leaves_none hr, minimum?, hr, Option.bind_none, List.head?_nil]
  | some root =>
    rw [leaves_some hr, minimum?, hr, Option.bind_some, (h.fits root hr).inhabited.minimum?_eq]

theorem maximum?_eq (h : index.Holds load contents) : index.maximum? = index.leaves.getLast? := by
  cases hr : index.root with
  | none => rw [leaves_none hr, maximum?, hr, Option.bind_none, List.getLast?_nil]
  | some root =>
    rw [leaves_some hr, maximum?, hr, Option.bind_some, (h.fits root hr).inhabited.maximum?_eq]

theorem isEmpty_iff (h : index.Holds load contents) :
    index.isEmpty ↔ ∀ key, contents key = none := by
  cases hr : index.root with
  | none => simp [isEmpty, hr, h.eq_none_iff, leaves_none hr]
  | some root =>
    obtain ⟨v, hv⟩ := (h.fits root hr).exists_mem
    have hc := h.of_mem (leaves_some hr ▸ hv)
    simp only [isEmpty, hr, Option.isNone_some, Bool.false_eq_true, false_iff]
    intro hnone
    cases (hnone _).symm.trans hc

/-! ## No contents -/

theorem empty (load : Loader) (policy : Policy) : (Index.empty policy).Holds load fun _ => none :=
  ⟨nofun, fun _ _ => ⟨nofun, fun h => nomatch h.1⟩, rfl⟩

theorem eq_none_of_root (h : index.Holds load contents) (hr : index.root = none) :
    contents = fun _ => none := by
  funext key
  exact h.eq_none_iff.2 fun v hv => by rw [leaves_none hr] at hv; cases hv

/-! ## Changes -/

theorem find_insert (h : index.Holds load contents) (hkey : load value = key)
    {values : List UInt64} (hm : ∀ v, v ∈ values ↔ v = value ∨ v ∈ index.leaves ∧ load v ≠ key)
    (k : Key) (v : UInt64) :
    Function.update contents key (some value) k = some v ↔ v ∈ values ∧ load v = k := by
  rw [hm]
  by_cases hk : k = key
  · subst hk
    rw [Function.update_self, Option.some.injEq]
    constructor
    · rintro rfl
      exact ⟨.inl rfl, hkey⟩
    · rintro ⟨rfl | ⟨-, hne⟩, heq⟩
      · rfl
      · exact absurd heq hne
  · rw [Function.update_of_ne hk, h.find]
    constructor
    · rintro ⟨hv, rfl⟩
      exact ⟨.inr ⟨hv, hk⟩, rfl⟩
    · rintro ⟨rfl | ⟨hv, -⟩, heq⟩
      · exact absurd (heq.symm.trans hkey) hk
      · exact ⟨hv, heq⟩

/-- A key is taken, and the payload it had is answered, or it is rejected and nothing changes. The new
payload has no part in this. -/
theorem insert_decides (h : index.Holds load contents) (key : Key) (value : UInt64) :
    (∃ reason, Key.check key = .error reason ∧
      index.insert load key value = .unchanged index (.error (.key reason))) ∨
    (Key.check key = .ok () ∧ contents.Clash key ∧
      index.insert load key value = .unchanged index (.error (.key .notPrefixFree))) ∨
    (Key.check key = .ok () ∧ ¬ contents.Clash key ∧
      (index.insert load key value).answer = .ok (contents key)) := by
  unfold Index.insert
  cases hcheck : Key.check key with
  | error reason => exact .inl ⟨reason, rfl, rfl⟩
  | ok =>
    refine .inr ?_
    cases hr : index.root with
    | none =>
      have hnone := h.eq_none_of_root hr
      refine .inr ⟨rfl, ?_, by rw [hnone]⟩
      rintro ⟨other, ho, -⟩
      exact ho (by rw [hnone])
    | some root =>
      have hattempt : Tree.Attempt load key value [] root (root.insertAt load key 0 value) :=
        (h.fits root hr).attempt List.nil_prefix
      have hdecides := hattempt.decides
      rw [h.clashes_iff hr, h.holder?_eq hr] at hdecides
      refine hdecides.imp (fun ⟨hclash, hdone⟩ => ⟨rfl, hclash, ?_⟩)
        fun ⟨hfree, hanswer⟩ => ⟨rfl, hfree, hanswer⟩
      simp only [hdone]
      exact congrArg (Outcome.unchanged · _) (with_root hr)

/-- Any key is taken into an index without contents. -/
theorem insert_first (h : index.Holds load contents) (hr : index.root = none)
    (hcheck : Key.check key = .ok ()) (hkey : load value = key) :
    (index.insert load key value).state.Holds load (Function.update contents key (some value)) := by
  unfold Index.insert
  rw [hcheck, hr]
  refine ⟨fun root' hr' => ?_, h.find_insert hkey fun v => ?_, ?_⟩
  · cases hr'
    exact .leaf List.nil_prefix (hkey ▸ hcheck)
  · rw [leaves_none hr]
    simp [leaves, Tree.toList_leaf]
  · rw [h.length, leaves_none hr]
    simp [leaves, Tree.toList_leaf]

/-- What the tree takes in the index takes in, and counts a key that is new. -/
theorem insert_within (h : index.Holds load contents) (hr : index.root = some root)
    (hcheck : Key.check key = .ok ()) (hkey : load value = key)
    (hins : root.Inserts load [] value (root.insertAt load key 0 value)) :
    (index.insert load key value).state.Holds load (Function.update contents key (some value)) := by
  have hanswer := hins.answer
  have hlength := hins.length_eq (h.fits root hr)
  rw [hkey, h.holder?_eq hr] at hanswer hlength
  unfold Index.insert
  rw [hcheck, hr]
  refine ⟨fun root' hr' => ?_, h.find_insert hkey fun v => ?_, ?_⟩
  · cases hr'
    exact hins.fits
  · have hmem := hins.mem v
    rw [hkey, ← leaves_some hr] at hmem
    exact hmem
  · refine Eq.trans ?_ hlength.symm
    simp only [Outcome.within, hanswer]
    rw [← leaves_some hr, ← h.length]
    cases contents key <;> rfl

/-- A payload that is put in under its key is held there afterwards. -/
theorem insert_of_not_clash (h : index.Holds load contents) (hkey : load value = key)
    (hcheck : Key.check key = .ok ()) (hfree : ¬ contents.Clash key) :
    (index.insert load key value).state.Holds load (Function.update contents key (some value)) := by
  cases hr : index.root with
  | none => exact h.insert_first hr hcheck hkey
  | some root =>
    have hfree' : ¬ Tree.Clashes load root (load value) := by rwa [h.clashes_iff hr, hkey]
    have hins := (h.fits root hr).insertAt List.nil_prefix (hkey ▸ hcheck) hfree'
    rw [hkey] at hins
    exact h.insert_within hr hcheck hkey hins

/-- A key is put in and its old payload answered, or the key is rejected and nothing changes. -/
theorem insert_cases (h : index.Holds load contents) (hkey : load value = key) :
    (∃ reason, Key.check key = .error reason ∧
      index.insert load key value = .unchanged index (.error (.key reason))) ∨
    (Key.check key = .ok () ∧ contents.Clash key ∧
      index.insert load key value = .unchanged index (.error (.key .notPrefixFree))) ∨
    (Key.check key = .ok () ∧ ¬ contents.Clash key ∧
      (index.insert load key value).answer = .ok (contents key) ∧
      (index.insert load key value).state.Holds load
        (Function.update contents key (some value))) :=
  (h.insert_decides key value).imp_right <| Or.imp_right fun ⟨hcheck, hfree, hanswer⟩ =>
    ⟨hcheck, hfree, hanswer, h.insert_of_not_clash hkey hcheck hfree⟩

theorem find_erase (h : index.Holds load contents) (hc : contents key = some v)
    {values : List UInt64} (hm : ∀ w, w ∈ values ↔ w ∈ index.leaves ∧ w ≠ v) (k : Key)
    (w : UInt64) :
    Function.update contents key none k = some w ↔ w ∈ values ∧ load w = k := by
  rw [hm]
  by_cases hk : k = key
  · subst hk
    rw [Function.update_self]
    refine ⟨nofun, fun ⟨⟨hw, hne⟩, heq⟩ => absurd ?_ hne⟩
    subst heq
    exact Option.some.inj ((h.of_mem hw).symm.trans hc)
  · rw [Function.update_of_ne hk, h.find]
    constructor
    · rintro ⟨hw, rfl⟩
      refine ⟨⟨hw, ?_⟩, rfl⟩
      rintro rfl
      exact hk ((h.find key w).1 hc).2
    · rintro ⟨⟨hw, -⟩, heq⟩
      exact ⟨hw, heq⟩

theorem erase_of_eq_none (h : index.Holds load contents) (hn : contents key = none) :
    index.erase load key = .unchanged index none := by
  have habsent := h.eq_none_iff.1 hn
  rw [Index.erase]
  split
  · rfl
  split
  · rfl
  · next v hr =>
    rw [leaves_some hr, Tree.toList_leaf] at habsent
    rw [if_neg (habsent v List.mem_cons_self)]
  · next node hr =>
    rw [leaves_some hr] at habsent
    rw [Tree.eraseAt_eq_unchanged (h.fits _ hr).laid habsent]
    exact congrArg (Outcome.unchanged · _) (with_root hr)

/-- The only key is taken out together with the tree. -/
theorem erase_last (h : index.Holds load contents) (hr : index.root = some (.leaf v))
    (hc : contents key = some v) :
    (index.erase load key).answer = some v ∧
      (index.erase load key).state.Holds load (Function.update contents key none) := by
  have hne : key ≠ [] := (Key.check_eq_ok_iff.1 (h.checked hc)).1
  have hleaves : index.leaves = [v] := by rw [leaves_some hr, Tree.toList_leaf]
  unfold Index.erase
  rw [if_neg (by simpa using hne), hr]
  simp only [((h.find key v).1 hc).2, if_true]
  refine ⟨trivial, nofun, h.find_erase hc fun w => ?_, ?_⟩
  · rw [hleaves]
    simp [leaves]
  · rw [h.length, hleaves]
    rfl

/-- What the tree loses the index loses, and does not count any more. -/
theorem erase_within (h : index.Holds load contents) {node : Node Tree}
    (hr : index.root = some (.inner node)) (hc : contents key = some v) :
    (index.erase load key).answer = some v ∧
      (index.erase load key).state.Holds load (Function.update contents key none) := by
  have hne : key ≠ [] := (Key.check_eq_ok_iff.1 (h.checked hc)).1
  obtain ⟨hv, hkey⟩ := (h.find key v).1 hc
  have hleaves := leaves_some hr
  rw [hleaves] at hv
  have hfits := h.fits _ hr
  have he := hfits.eraseAt hv rfl
  have hlength := he.length_eq hfits hv
  rw [hkey, List.length_nil] at he hlength
  unfold Index.erase
  rw [if_neg (by simpa using hne), hr]
  refine ⟨he.answer, fun root hr' => ?_, h.find_erase hc fun w => ?_, ?_⟩
  · cases hr'
    exact he.fits
  · rw [hleaves]
    exact he.mem w
  · refine Eq.trans ?_ (Nat.sub_eq_of_eq_add hlength.symm)
    simp only [Outcome.within, he.answer]
    rw [← hleaves, ← h.length]
    rfl

theorem erase_of_eq_some (h : index.Holds load contents) (hc : contents key = some v) :
    (index.erase load key).answer = some v ∧
      (index.erase load key).state.Holds load (Function.update contents key none) := by
  obtain ⟨hv, -⟩ := (h.find key v).1 hc
  match hr : index.root with
  | none =>
    rw [leaves_none hr] at hv
    cases hv
  | some (.leaf value) =>
    rw [leaves_some hr, Tree.toList_leaf, List.mem_singleton] at hv
    exact h.erase_last (hv ▸ hr) hc
  | some (.inner node) => exact h.erase_within hr hc

/-- The payload of a key is taken out, if there is one. -/
theorem erase (h : index.Holds load contents) (key : Key) :
    (index.erase load key).answer = contents key ∧
      (index.erase load key).state.Holds load (Function.update contents key none) := by
  cases hc : contents key with
  | none =>
    rw [h.erase_of_eq_none hc]
    exact ⟨rfl, by rwa [← hc, Function.update_eq_self]⟩
  | some v => exact h.erase_of_eq_some hc

end Holds

end Index

end AdaptiveRadix
