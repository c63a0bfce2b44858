/-
Ceilings and floors. What a search for a nearest key answers is a question about the contents
alone: the payload of the least key that is not less, or of the greatest that is not greater.
-/
import AdaptiveRadix.Proofs.Index.Reaches

namespace AdaptiveRadix

/-- The right answer to a search for the smallest key that is not less than the given one. -/
def Contents.Ceiling (contents : Contents) (key : Key) : Option UInt64 → Prop
  | some value => ∃ k, contents k = some value ∧ key ≤ k ∧
      ∀ other, contents other ≠ none → key ≤ other → k ≤ other
  | none => ∀ other, contents other ≠ none → ¬ key ≤ other

/-- The right answer to a search for the greatest key that is not greater than the given one. -/
def Contents.Floor (contents : Contents) (key : Key) : Option UInt64 → Prop
  | some value => ∃ k, contents k = some value ∧ k ≤ key ∧
      ∀ other, contents other ≠ none → other ≤ key → other ≤ k
  | none => ∀ other, contents other ≠ none → ¬ other ≤ key

/-- In a list in order, what is found first comes before all else that could have been found. -/
theorem find?_of_pairwise {β : Type} {r : β → β → Prop} {p : β → Bool} {l : List β} {x : β}
    (hs : l.Pairwise r) (hf : l.find? p = some x) : ∀ y ∈ l, p y → y = x ∨ r x y := by
  obtain ⟨-, as, bs, rfl, hnot⟩ := List.find?_eq_some_iff_append.1 hf
  intro y hy hp
  rcases List.mem_append.1 hy with hy | hy
  · have := hnot y hy
    rw [hp] at this
    cases this
  · rcases List.mem_cons.1 hy with rfl | hy
    · exact .inl rfl
    · exact .inr ((List.pairwise_cons.1 (List.pairwise_append.1 hs).2.1).1 y hy)

variable {index : Index} {contents : Contents} {load : Loader}

namespace Index.Holds

theorem seek_eq_nearest? (h : index.Holds load contents) (key : Key) (aim : Aim)
    (haim : ∀ policy, aim ≠ .exact policy) :
    index.seek load key aim = Tree.nearest? load key index.leaves aim := by
  rw [Index.seek]
  cases hr : index.root with
  | none =>
    rw [leaves_none hr]
    cases aim <;> rfl
  | some root =>
    have hfits := h.fits root hr
    rw [leaves_some hr, Option.bind_some]
    split
    · next hempty =>
      rw [List.isEmpty_iff] at hempty
      subst hempty
      refine Tree.allGreater_eq hfits.inhabited fun v hv => ?_
      obtain ⟨x, s, hk⟩ := List.exists_cons_of_ne_nil (Key.check_eq_ok_iff.1 (hfits.checked hv)).1
      rw [hk]
      exact List.nil_lt_cons x s
    · exact hfits.seek_eq_nearest? List.nil_prefix haim

theorem ceiling (h : index.Holds load contents) (key : Key) :
    contents.Ceiling key (index.ceiling load key) := by
  rw [Index.ceiling, h.seek_eq_nearest? key .ceiling nofun]
  cases hf : Tree.nearest? load key index.leaves .ceiling with
  | none =>
    intro other ho
    obtain ⟨w, hw, rfl⟩ := h.exists_leaf ho
    simpa using List.find?_eq_none.1 hf w hw
  | some v =>
    refine ⟨load v, h.of_mem (List.mem_of_find?_eq_some hf), by simpa using List.find?_some hf, ?_⟩
    intro other ho hle
    obtain ⟨w, hw, rfl⟩ := h.exists_leaf ho
    rcases find?_of_pairwise h.ascending hf w hw (by simpa using hle) with rfl | hlt
    · exact List.le_refl _
    · exact List.le_of_lt hlt

theorem floor (h : index.Holds load contents) (key : Key) :
    contents.Floor key (index.floor load key) := by
  rw [Index.floor, h.seek_eq_nearest? key .floor nofun]
  cases hf : Tree.nearest? load key index.leaves .floor with
  | none =>
    intro other ho
    obtain ⟨w, hw, rfl⟩ := h.exists_leaf ho
    simpa using List.find?_eq_none.1 hf w (List.mem_reverse.2 hw)
  | some v =>
    have hv := List.mem_reverse.1 (List.mem_of_find?_eq_some hf)
    refine ⟨load v, h.of_mem hv, by simpa using List.find?_some hf, ?_⟩
    intro other ho hle
    obtain ⟨w, hw, rfl⟩ := h.exists_leaf ho
    rcases find?_of_pairwise (List.pairwise_reverse.2 h.ascending) hf w
      (List.mem_reverse.2 hw) (by simpa using hle) with rfl | hlt
    · exact List.le_refl _
    · exact List.le_of_lt hlt

end Index.Holds

/-- After any run ceilings and floors are right for every search key, in the contents or not. -/
theorem Reaches.ceiling_floor (h : Reaches index contents) (resolve : contents.Resolve load)
    (key : Key) :
    contents.Ceiling key (index.ceiling load key) ∧ contents.Floor key (index.floor load key) :=
  ⟨(h.holds resolve).ceiling key, (h.holds resolve).floor key⟩

theorem twins_ceiling_floor :
    twins.ceiling twinKey [97] = some 1 ∧ twinContents.Ceiling [97] (some 1) ∧
      twins.floor twinKey [97] = none ∧ twinContents.Floor [97] none := by
  obtain ⟨hceiling, hfloor⟩ := Reaches.ceiling_floor reaches_twins resolve_twins [97]
  have hc : twins.ceiling twinKey [97] = some 1 := by cbv
  have hf : twins.floor twinKey [97] = none := by cbv
  exact ⟨hc, hc ▸ hceiling, hf, hf ▸ hfloor⟩

end AdaptiveRadix
