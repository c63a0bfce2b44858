/-
Subtrees for a beginning. Which keys begin as asked is a question about the contents alone, and a
subtree answers it whole: it lists the payloads of just these keys, in the order of the keys.
-/
import AdaptiveRadix.Proofs.Index.Reaches
import AdaptiveRadix.Proofs.Tree.Subtree

namespace AdaptiveRadix

/-- The contents under the keys with a given beginning. -/
def Contents.startingWith (contents : Contents) (start : Key) : Contents :=
  fun key => if start <+: key then contents key else none

/-- What a tree shows of itself is what the contents list: all payloads in the order of their keys,
and the first and the last of them. -/
structure Tree.Shows (tree : Tree) (contents : Contents) (entries : List (Key × UInt64)) : Prop where
  lists : contents.Lists entries
  payloads : tree.payloads = entries.map Prod.snd
  minimum : tree.minimum? = entries.head?.map Prod.snd
  maximum : tree.maximum? = entries.getLast?.map Prod.snd

variable {index : Index} {contents : Contents} {load : Loader} {above : Key} {tree : Tree}

theorem Tree.Fits.shows (h : tree.Fits load above)
    (hmem : ∀ key value, contents key = some value ↔ value ∈ tree.toList ∧ load value = key) :
    tree.Shows contents (tree.toList.map fun v => (load v, v)) := by
  have hsnd := map_snd_map_load load tree.toList
  refine ⟨Contents.lists_map (h.ascending.imp fun hp => hp.lt) hmem, ?_, ?_, ?_⟩
  · rw [hsnd, h.payloads_eq]
  · rw [← List.head?_map, hsnd, h.inhabited.minimum?_eq]
  · rw [← List.getLast?_map, hsnd, h.inhabited.maximum?_eq]

theorem Index.Holds.subtree? (h : index.Holds load contents) (start : Key) :
    (index.subtree? load start = none ↔ ∀ key, contents key ≠ none → ¬ start <+: key) ∧
      ∀ below, index.subtree? load start = some below →
        ∃ entries, below.Shows (contents.startingWith start) entries := by
  have hkeys : (∀ key, contents key ≠ none → ¬ start <+: key) ↔
      ∀ v ∈ index.leaves, ¬ start <+: load v := by
    constructor
    · intro hno v hv
      exact hno _ (by rw [h.of_mem hv]; exact Option.some_ne_none v)
    · intro hno key hc
      obtain ⟨v, hv, rfl⟩ := h.exists_leaf hc
      exact hno v hv
  rw [hkeys, Index.subtree?]
  cases hr : index.root with
  | none =>
    rw [leaves_none hr]
    exact ⟨⟨fun _ => List.forall_mem_nil _, fun _ => rfl⟩, nofun⟩
  | some root =>
    obtain ⟨hnone, hsome⟩ := (h.fits root hr).subtree? start
    rw [leaves_some hr, Option.bind_some]
    refine ⟨hnone, fun below hb => ?_⟩
    obtain ⟨⟨above, hfits⟩, hmem⟩ := hsome below hb
    refine ⟨_, hfits.shows fun key value => ?_⟩
    rw [Contents.startingWith, hmem, Option.ite_none_right_eq_some, h.find, leaves_some hr]
    constructor
    · rintro ⟨hp, hv, rfl⟩
      exact ⟨⟨hv, hp⟩, rfl⟩
    · rintro ⟨⟨hv, hp⟩, rfl⟩
      exact ⟨hp, hv, rfl⟩

/-- The payloads of a subtree are those in the list of all that have keys with the beginning, and its
ends are the ends of what is left of the list. -/
theorem Index.Holds.subtree?_cases (h : index.Holds load contents) (start : Key) :
    let found := index.leaves.filter fun v => start.isPrefixOf (load v)
    (index.subtree? load start = none ∧ found = []) ∨
      ∃ below, index.subtree? load start = some below ∧ below.payloads = found ∧
        below.minimum? = found.head? ∧ below.maximum? = found.getLast? := by
  intro found
  obtain ⟨hnone, hsome⟩ := h.subtree? start
  cases hb : index.subtree? load start with
  | none =>
    refine .inl ⟨rfl, List.filter_eq_nil_iff.2 fun v hv => ?_⟩
    rw [List.isPrefixOf_iff_prefix]
    exact hnone.1 hb _ (by rw [h.of_mem hv]; exact Option.some_ne_none v)
  | some below =>
    obtain ⟨entries, hshows⟩ := hsome below hb
    have hentry : ∀ key v, (key, v) ∈ entries ↔ start <+: key ∧ v ∈ index.leaves ∧ load v = key := by
      intro key v
      rw [hshows.lists.mem, Contents.startingWith, Option.ite_none_right_eq_some, h.find]
    have hfound : entries.map Prod.snd = found := by
      refine Probe.eq_of_pairwise (r := fun v w => load v < load w) (fun _ _ => List.lt_asymm) ?_
        (h.ascending.sublist List.filter_sublist) fun v => ?_
      · refine List.pairwise_map.2 (hshows.lists.ascending.imp_of_mem fun he hf hlt => ?_)
        rw [((hentry _ _).1 he).2.2, ((hentry _ _).1 hf).2.2]
        exact hlt
      · rw [List.mem_map, List.mem_filter, List.isPrefixOf_iff_prefix]
        constructor
        · rintro ⟨⟨key, v⟩, he, rfl⟩
          obtain ⟨hp, hv, rfl⟩ := (hentry _ _).1 he
          exact ⟨hv, hp⟩
        · rintro ⟨hv, hp⟩
          exact ⟨(load v, v), (hentry _ _).2 ⟨hp, hv, rfl⟩, rfl⟩
    refine .inr ⟨below, rfl, hshows.payloads.trans hfound, ?_, ?_⟩
    · rw [hshows.minimum, ← List.head?_map, hfound]
    · rw [hshows.maximum, ← List.getLast?_map, hfound]

/-- After any run the subtree for a beginning shows just the contents under the keys that begin so,
and there is no subtree when there are no such keys. -/
theorem Reaches.subtree_exact (h : Reaches index contents) (resolve : contents.Resolve load)
    (start : Key) :
    (index.subtree? load start = none ↔ ∀ key, contents key ≠ none → ¬ start <+: key) ∧
      ∀ below, index.subtree? load start = some below →
        ∃ entries, below.Shows (contents.startingWith start) entries :=
  (h.holds resolve).subtree? start

/-- A beginning that ends in the part of a path that is not stored. -/
theorem twins_subtree_exact :
    twins.subtree? twinKey (List.replicate 10 97 ++ [98]) = none ∧
      ∃ below entries, twins.subtree? twinKey (List.replicate 11 97) = some below ∧
        below.Shows (twinContents.startingWith (List.replicate 11 97)) entries := by
  obtain ⟨hnone, -⟩ :=
    Reaches.subtree_exact reaches_twins resolve_twins (List.replicate 10 97 ++ [98])
  obtain ⟨hnone', hsome⟩ := Reaches.subtree_exact reaches_twins resolve_twins (List.replicate 11 97)
  refine ⟨hnone.2 fun key hc => ?_, ?_⟩
  · rcases eq_twinKey hc with rfl | rfl <;> decide
  · cases hs : twins.subtree? twinKey (List.replicate 11 97) with
    | none => exact absurd (by decide) (hnone'.1 hs (twinKey 1) (by decide))
    | some below =>
      obtain ⟨entries, hshows⟩ := hsome below hs
      exact ⟨below, entries, rfl, hshows⟩

end AdaptiveRadix
