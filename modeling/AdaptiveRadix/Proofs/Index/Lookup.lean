/-
Lookups. Either policy finds the payload of a key that is there, and nothing under a key that is
not, unless some key of the index goes on where the sought one ends. So the policy an index was
made with does not show.
-/
import AdaptiveRadix.Proofs.Index.Reaches

namespace AdaptiveRadix

variable {index : Index} {contents : Contents} {load : Loader} {key : Key}

namespace Index.Holds

theorem lookupWith_eq (h : index.Holds load contents)
    (hend : ∀ other, contents other ≠ none → key <+: other → other = key) (policy : Policy) :
    index.lookupWith load key policy = contents key := by
  rw [lookupWith, Index.seek]
  cases hr : index.root with
  | none => rw [h.eq_none_of_root hr, Option.bind_none]
  | some root =>
    have hfits := h.fits root hr
    rw [Option.bind_some]
    split
    · next hempty =>
      rw [List.isEmpty_iff] at hempty
      subst hempty
      refine (h.eq_none_iff.2 fun v hv => ?_).symm
      exact (Key.check_eq_ok_iff.1 (hfits.checked (leaves_some hr ▸ hv))).1
    · cases hc : contents key with
      | some v =>
        obtain ⟨hv, rfl⟩ := (h.find key v).1 hc
        exact hfits.seek_of_mem (leaves_some hr ▸ hv) policy false
      | none =>
        refine Option.eq_none_iff_forall_ne_some.2 fun v hs => ?_
        obtain ⟨hv, hp⟩ := hfits.isPrefix_of_seek (.inl List.nil_prefix) hs
        rw [← leaves_some hr] at hv
        have hv' := h.of_mem hv
        rw [hend _ (by rw [hv']; exact Option.some_ne_none v) hp, hc] at hv'
        cases hv'

theorem lookup_eq (h : index.Holds load contents)
    (hend : ∀ other, contents other ≠ none → key <+: other → other = key) :
    index.lookup load key = contents key :=
  h.lookupWith_eq hend index.policy

end Index.Holds

/-- After any run a lookup is right under either policy, and in an index of either policy, for every
key where no other key of the contents goes on. -/
theorem Reaches.lookup_exact (h : Reaches index contents) (resolve : contents.Resolve load)
    (hend : ∀ other, contents other ≠ none → key <+: other → other = key) :
    (∀ policy, index.lookupWith load key policy = contents key) ∧
      ∀ policy, { index with policy }.lookup load key = contents key ∧
        { index with policy }.contains load key = (contents key).isSome := by
  have hlookup := (h.holds resolve).lookupWith_eq hend
  have hpolicy (policy : Policy) : { index with policy }.lookup load key = contents key :=
    hlookup policy
  exact ⟨hlookup, fun policy => ⟨hpolicy policy, congrArg Option.isSome (hpolicy policy)⟩⟩

/-- A key that leaves the path of the twins at a byte that is not stored, and one of the twins. -/
theorem twins_lookup_exact :
    (∀ other, twinContents other ≠ none → List.replicate 11 97 ++ [98, 1] <+: other →
      other = List.replicate 11 97 ++ [98, 1]) ∧
    (twins.lookupWith twinKey (List.replicate 11 97 ++ [98, 1]) .optimistic = none ∧
      twins.lookupWith twinKey (List.replicate 11 97 ++ [98, 1]) .pessimistic = none) ∧
    (∀ other, twinContents other ≠ none → twinKey 1 <+: other → other = twinKey 1) ∧
    twins.lookupWith twinKey (twinKey 1) .optimistic = some 1 ∧
    twins.lookupWith twinKey (twinKey 1) .pessimistic = some 1 ∧
    { twins with policy := .optimistic }.contains twinKey (twinKey 1) = true := by
  have hend : ∀ other, twinContents other ≠ none → List.replicate 11 97 ++ [98, 1] <+: other →
      other = List.replicate 11 97 ++ [98, 1] := by
    intro other ho hp
    rcases eq_twinKey ho with rfl | rfl <;> exact absurd hp (by decide)
  have hend' : ∀ other, twinContents other ≠ none → twinKey 1 <+: other → other = twinKey 1 := by
    intro other ho hp
    rcases eq_twinKey ho with rfl | rfl
    · rfl
    · exact absurd hp (by decide)
  obtain ⟨hlookup, -⟩ := Reaches.lookup_exact reaches_twins resolve_twins hend
  obtain ⟨hlookup', hpolicy⟩ := Reaches.lookup_exact reaches_twins resolve_twins hend'
  have habsent : twinContents (List.replicate 11 97 ++ [98, 1]) = none := by decide
  have hpresent : twinContents (twinKey 1) = some 1 := by decide
  refine ⟨hend, ⟨(hlookup .optimistic).trans habsent, (hlookup .pessimistic).trans habsent⟩, hend',
    (hlookup' .optimistic).trans hpresent, (hlookup' .pessimistic).trans hpresent, ?_⟩
  rw [(hpolicy .optimistic).2, hpresent, Option.isSome_some]

end AdaptiveRadix
