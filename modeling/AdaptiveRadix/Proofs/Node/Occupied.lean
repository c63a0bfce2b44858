/-
Nodes that are neither too full nor too empty for their kind. Adding a child, replacing one and
making a node of two children keep a node so; taking a child out leaves it at most one child
short, which a smaller kind makes good, unless the node is of the smallest kind already.
-/
import AdaptiveRadix.Proofs.Node.Resize
import AdaptiveRadix.Tree.Integrity

namespace AdaptiveRadix

namespace Kind

variable {kind larger : Kind}

theorem two_le_fewest (kind : Kind) : 2 ≤ kind.fewest := by
  cases kind <;> decide

theorem exists_larger? (h : kind ≠ .full) : ∃ larger, kind.larger? = some larger := by
  cases kind with
  | full => exact absurd rfl h
  | _ => exact ⟨_, rfl⟩

/-- A full node has enough children for the next larger kind. -/
theorem fewest_le (h : kind.larger? = some larger) : larger.fewest ≤ kind.capacity := by
  cases kind <;> cases h <;> decide

end Kind

namespace Node

variable {α : Type} {node : Node α} {kind : Kind} {byte : UInt8} {child : α}

/-- A node whose layout is valid and that has at least the children its kind is left with. -/
structure Valid (node : Node α) : Prop where
  layout : node.layout.Valid
  fewest : node.kind.fewest ≤ node.count

theorem Valid.two_le_count (h : node.Valid) : 2 ≤ node.count :=
  Nat.le_trans node.kind.two_le_fewest h.fewest

theorem mem_entries (h : node.layout.Valid) {entry : UInt8 × α} :
    entry ∈ node.entries ↔ node.find? entry.1 = some entry.2 :=
  h.mem_entries

theorem first?_eq (h : node.layout.Valid) : node.first? = node.entries.head? :=
  h.first?_eq

theorem last?_eq (h : node.layout.Valid) : node.last? = node.entries.getLast? :=
  h.last?_eq

/-- The children before and after a byte, and the next ones to it. -/
theorem entries_split (h : node.layout.Valid) (byte : UInt8) :
    ∃ lo hi, node.entries = lo ++ ((node.find? byte).map (byte, ·)).toList ++ hi ∧
      (∀ entry ∈ lo, entry.1 < byte) ∧ (∀ entry ∈ hi, byte < entry.1) ∧
      node.after? byte = hi.head? ∧ node.before? byte = lo.getLast? := by
  obtain ⟨lo, hi, he, hlo, hhi, hafter, hbefore⟩ := Probe.entries_split node.find? byte
  have hentries : node.entries = Probe.entries node.find? := h.entries_eq
  refine ⟨lo, hi, hentries.trans he, hlo, hhi, ?_, ?_⟩
  · rw [← hafter, Probe.after?_eq, ← hentries]
    exact h.after?_eq byte
  · rw [← hbefore, Probe.before?_eq, ← hentries]
    exact h.before?_eq byte

theorem count_eq (h : node.layout.Valid) : node.count = (Probe.entries node.find?).length :=
  h.count_eq.trans (congrArg List.length h.entries_eq)

theorem entries_eq_singleton (h : node.layout.Valid) (hone : node.count = 1)
    (hc : node.find? byte = some child) : node.entries = [(byte, child)] := by
  have hlen : node.entries.length = 1 := h.count_eq.symm.trans hone
  obtain ⟨entry, he⟩ := List.length_eq_one_iff.1 hlen
  have hmem : (byte, child) ∈ node.entries := (mem_entries h).2 hc
  rw [he, List.mem_singleton] at hmem
  rw [he, hmem]

theorem map_entries {β : Type} (h : node.layout.Valid) (f : α → β) :
    (node.entries.map fun entry => (entry.1, f entry.2)) =
      Probe.entries fun byte => (node.find? byte).map f := by
  rw [← Probe.map_entries]
  exact congrArg _ h.entries_eq

/-! ## Other children -/

theorem kind_replace (node : Node α) (byte : UInt8) (child : α) :
    (node.replace byte child).kind = node.kind :=
  Layout.kind_replace ..

theorem replace_eq (h : node.layout.Valid) (hold : (node.find? byte).isSome) (child : α) :
    (node.replace byte child).layout.Valid ∧
      (node.replace byte child).find? = Function.update node.find? byte (some child) ∧
      (node.replace byte child).count = node.count := by
  obtain ⟨hv, hf⟩ := h.replace hold child
  change (node.replace byte child).find? = _ at hf
  refine ⟨hv, hf, ?_⟩
  rw [count_eq hv, count_eq h]
  rw [hf]
  exact Probe.length_entries_replace hold child

theorem Valid.replace (h : node.Valid) (hold : (node.find? byte).isSome) (child : α) :
    (node.replace byte child).Valid ∧
      (node.replace byte child).find? = Function.update node.find? byte (some child) := by
  obtain ⟨hv, hf, hc⟩ := replace_eq h.layout hold child
  exact ⟨⟨hv, by rw [kind_replace, hc]; exact h.fewest⟩, hf⟩

theorem replace_self (h : node.find? byte = some child) : node.replace byte child = node := by
  rw [replace, Layout.replace_self h]

/-- A child goes in where its byte has a place already or there is one left. -/
theorem insert_of_place (h : node.layout.Valid)
    (hplace : (node.find? byte).isSome ∨ node.count < node.kind.capacity) (child : α) :
    ∃ node', node.insert byte child = .ok node' ∧ node'.layout.Valid ∧ node'.path = node.path ∧
      node'.kind = node.kind ∧ node'.find? = Function.update node.find? byte (some child) := by
  obtain ⟨layout, hi, hv, hk, hf⟩ := h.insert? hplace child
  exact ⟨{ node with layout }, by rw [insert, hi], hv, rfl, hk, hf⟩

/-- A child goes in under a new byte where there is room. -/
theorem insert_eq_ok (h : node.layout.Valid) (hnew : node.find? byte = none)
    (hroom : node.count < node.kind.capacity) (child : α) :
    ∃ node', node.insert byte child = .ok node' ∧ node'.layout.Valid ∧ node'.path = node.path ∧
      node'.kind = node.kind ∧ node'.count = node.count + 1 ∧
      node'.find? = Function.update node.find? byte (some child) := by
  obtain ⟨node', hi, hv, hp, hk, hf⟩ := insert_of_place h (.inr hroom) child
  refine ⟨node', hi, hv, hp, hk, ?_, hf⟩
  rw [count_eq hv, count_eq h, hf]
  exact Probe.length_entries_insert hnew child

theorem layout_empty_valid (path : Path) : (empty path : Node α).layout.Valid :=
  show (Layout.ofEntries .four []).Valid from Layout.valid_ofEntries .nil (Nat.zero_le _)

theorem find?_empty (path : Path) (byte : UInt8) : (empty path : Node α).find? byte = none :=
  Option.eq_none_iff_forall_ne_some.2 fun _ h =>
    have h : (Layout.ofEntries .four []).find? byte = _ := h
    List.not_mem_nil ((Layout.find?_ofEntries .nil (Nat.zero_le _)).1 h)

/-- Two children under different bytes make a node. -/
theorem fork_eq_ok (path : Path) {byte₁ byte₂ : UInt8} (hne : byte₁ ≠ byte₂) (child₁ child₂ : α) :
    ∃ node, fork path byte₁ child₁ byte₂ child₂ = .ok node ∧ node.Valid ∧ node.path = path ∧
      node.kind = .four ∧ node.count = 2 ∧
      node.find? = Function.update (Function.update (fun _ => none) byte₁ (some child₁)) byte₂
        (some child₂) := by
  obtain ⟨one, hone, hv, hp, hk, hc, hf⟩ := insert_eq_ok (layout_empty_valid path)
    (find?_empty path byte₁) (by decide : 0 < 4) child₁
  have hnew : one.find? byte₂ = none := by
    rw [hf, Function.update_of_ne hne.symm, find?_empty]
  have hroom : one.count < one.kind.capacity := by
    rw [hc, hk]
    exact (by decide : 1 < 4)
  obtain ⟨two, htwo, hv', hp', hk', hc', hf'⟩ := insert_eq_ok hv hnew hroom child₂
  have hkind : two.kind = .four := hk'.trans hk
  have hcount : two.count = 2 := by
    rw [hc', hc]
    rfl
  have hempty : (empty path : Node α).find? = fun _ => none := funext (find?_empty path)
  refine ⟨two, ?_, ⟨hv', ?_⟩, hp'.trans hp, hkind, hcount, by rw [hf', hf, hempty]⟩
  · rw [fork, hone]
    exact htwo
  · rw [hkind, hcount]
    decide

/-! ## Other kinds -/

/-- The children do not outnumber the places of the next smaller kind. -/
def FitsSmaller (node : Node α) : Prop :=
  ∀ kind, node.kind.smaller? = some kind → node.count ≤ kind.capacity

theorem path_grow (node : Node α) : node.grow.1.path = node.path := by
  rw [grow]
  split <;> rfl

theorem path_shrink (node : Node α) : node.shrink.1.path = node.path := by
  rw [shrink, shrink?]
  split
  · rfl
  · cases node.layout.shrunk? <;> rfl

/-- A node of the largest kind stays as it is. -/
theorem grow_of_largest (hk : node.kind.larger? = none) : node.grow = (node, []) := by
  obtain ⟨path, layout⟩ := node
  cases layout with
  | full direct => rfl
  | _ => cases hk

/-- A node of the smallest kind stays as it is. -/
theorem shrink?_of_smallest (hk : node.kind.smaller? = none) : node.shrink? = some (node, []) := by
  rw [shrink?, hk]

/-- A node of a larger kind has the same children, whether or not it was full. -/
theorem grow_eq (h : node.layout.Valid) (hk : node.kind.larger? = some kind) :
    ∃ larger, node.grow = (larger, [.grew node.kind kind node.count]) ∧ larger.layout.Valid ∧
      larger.kind = kind ∧ larger.count = node.count ∧ larger.find? = node.find? := by
  obtain ⟨layout, hgrown, hv, rfl, hf⟩ := h.exists_grown? hk
  have hcount : layout.count = node.count := hv.count_congr h hf
  refine ⟨{ node with layout }, ?_, hv, rfl, hcount, hf⟩
  rw [grow, hgrown, ← hcount]

/-- A node becomes one of the next smaller kind where its children fit that, and has them still. -/
theorem shrink_eq (h : node.layout.Valid) (hk : node.kind.smaller? = some kind)
    (hroom : node.count ≤ kind.capacity) :
    ∃ smaller, node.shrink? = some (smaller, [.shrank node.kind kind node.count]) ∧
      node.shrink = (smaller, [.shrank node.kind kind node.count]) ∧ smaller.layout.Valid ∧
      smaller.kind = kind ∧ smaller.count = node.count ∧ smaller.find? = node.find? := by
  have hshrunk := (h.shrunk?_eq hk).trans (if_pos hroom)
  obtain ⟨hv, hkind, hf⟩ := h.ofEntries_entries hroom
  generalize Layout.ofEntries kind node.layout.entries = layout at hshrunk hv hkind hf
  have hcount : layout.count = node.count := hv.count_congr h hf
  have hdone : node.shrink? =
      some ({ node with layout }, [.shrank node.kind kind node.count]) := by
    simp only [shrink?, hk, hshrunk, Option.map_some, hkind, hcount]
  exact ⟨{ node with layout }, hdone, by rw [shrink, hdone, Option.getD_some], hv, hkind, hcount, hf⟩

/-- Only a node with too many children for the next smaller kind cannot be shrunk. -/
theorem shrink?_eq_none_iff (h : node.layout.Valid) : node.shrink? = none ↔ ¬ node.FitsSmaller := by
  cases hk : node.kind.smaller? with
  | none =>
    refine iff_of_false ?_ (not_not_intro fun kind hkind => ?_)
    · rw [shrink?_of_smallest hk]
      exact Option.some_ne_none _
    · cases hk.symm.trans hkind
  | some kind =>
    have hfits : node.FitsSmaller ↔ node.count ≤ kind.capacity := by
      simp [FitsSmaller, hk]
    rw [hfits]
    by_cases hroom : node.count ≤ kind.capacity
    · obtain ⟨smaller, hdone, -⟩ := shrink_eq h hk hroom
      exact iff_of_false (by simp [hdone]) (not_not_intro hroom)
    · have hshrunk := (h.shrunk?_eq hk).trans (if_neg hroom)
      exact iff_of_true (by simp only [shrink?, hk, hshrunk, Option.map_none]) hroom

/-- A full node of the largest kind has a child under every byte. -/
theorem kind_ne_full (h : node.layout.Valid) (hfull : node.isFull)
    (hnew : node.find? byte = none) (child : α) : node.kind ≠ .full := by
  intro hk
  have := Probe.length_entries_lt hnew child
  rw [← count_eq h] at this
  rw [isFull, hk, decide_eq_true_iff] at hfull
  exact absurd this (Nat.not_lt.2 hfull)

/-- A child goes in under a new byte; a node without room becomes one of the next larger kind and
reports it. -/
theorem add_eq_ok (h : node.layout.Valid) (hnew : node.find? byte = none) (child : α) :
    ∃ node' events, node.add byte child = .ok (node', events) ∧ node'.layout.Valid ∧
      node'.path = node.path ∧ node'.find? = Function.update node.find? byte (some child) ∧
      node'.count = node.count + 1 ∧
      (node.count < node.kind.capacity ∧ node'.kind = node.kind ∧ events = [] ∨
        node.count = node.kind.capacity ∧ node.kind.larger? = some node'.kind ∧
          events = [.grew node.kind node'.kind node.kind.capacity]) := by
  by_cases hfull : node.isFull
  · obtain ⟨kind, hk⟩ := Kind.exists_larger? (kind_ne_full h hfull hnew child)
    have hcount : node.count = node.kind.capacity :=
      Nat.le_antisymm h.count_le (by rwa [isFull, decide_eq_true_iff] at hfull)
    obtain ⟨larger, hgrow, hv, hkind, hc, hf⟩ := grow_eq h hk
    have hpath : larger.path = node.path := by
      rw [← path_grow node, hgrow]
    have hroom : larger.count < larger.kind.capacity := by
      rw [hc, hkind, hcount]
      exact Kind.capacity_lt hk
    obtain ⟨node', hi, hv', hp, hk', hc', hf'⟩ := insert_eq_ok hv (hf ▸ hnew) hroom child
    refine ⟨node', node.grow.2, ?_, hv', hp.trans hpath, by rw [hf', hf], by rw [hc', hc],
      .inr ⟨hcount, by rw [hk', hkind, hk], by rw [hk', hkind, hgrow, hcount]⟩⟩
    rw [Node.add, hfull, hnew, hgrow, hi]
    rfl
  · have hroom : node.count < node.kind.capacity := by
      simpa [isFull] using hfull
    obtain ⟨node', hi, hv', hp, hk', hc', hf'⟩ := insert_eq_ok h hnew hroom child
    refine ⟨node', [], ?_, hv', hp, hf', hc', .inl ⟨hroom, hk', rfl⟩⟩
    rw [Node.add, Bool.eq_false_iff.2 hfull, Bool.false_and, if_neg Bool.false_ne_true, hi]
    rfl

/-- Grown or not, a node has enough children for its kind already without the one that came in. -/
theorem Valid.fewest_add {node' : Node α} (h : node.Valid)
    (hkind : node'.kind = node.kind ∨
      node.count = node.kind.capacity ∧ node.kind.larger? = some node'.kind) :
    node'.kind.fewest ≤ node.count := by
  rcases hkind with hk | ⟨hfull, hk⟩
  · rw [hk]
    exact h.fewest
  · rw [hfull]
    exact Kind.fewest_le hk

theorem Valid.add (h : node.Valid) (hnew : node.find? byte = none) (child : α) :
    ∃ node' events, node.add byte child = .ok (node', events) ∧ node'.Valid ∧
      node'.path = node.path ∧ node'.find? = Function.update node.find? byte (some child) := by
  obtain ⟨node', events, hadd, hv, hp, hf, hc, hkind⟩ := add_eq_ok h.layout hnew child
  refine ⟨node', events, hadd, ⟨hv, ?_⟩, hp, hf⟩
  rw [hc]
  exact (h.fewest_add (hkind.imp (·.2.1) fun hg => ⟨hg.1, hg.2.1⟩)).trans (Nat.le_succ _)

/-! ## Fewer children -/

theorem remove_valid (h : node.layout.Valid) (byte : UInt8) :
    (node.remove byte).2.layout.Valid ∧
      (node.remove byte).2.find? = Function.update node.find? byte none :=
  (h.remove byte).2

theorem remove_eq (h : node.layout.Valid) (hold : (node.find? byte).isSome) :
    (node.remove byte).2.layout.Valid ∧ (node.remove byte).2.count + 1 = node.count ∧
      (node.remove byte).2.find? = Function.update node.find? byte none := by
  obtain ⟨hv, hf⟩ := remove_valid h byte
  refine ⟨hv, ?_, hf⟩
  rw [count_eq hv, count_eq h, hf]
  exact Probe.length_entries_remove hold

theorem kind_remove (node : Node α) (byte : UInt8) : (node.remove byte).2.kind = node.kind :=
  Layout.kind_remove ..

/-- A node with one child too few for its kind shrinks to a kind it suits, or is of the smallest. -/
theorem shrink_valid (h : node.layout.Valid) (hs : node.shouldShrink)
    (hfew : node.kind.fewest ≤ node.count + 1) :
    node.shrink.1.Valid ∧ node.shrink.1.find? = node.find? := by
  obtain ⟨smaller, hk, hnum⟩ : ∃ smaller, node.kind.smaller? = some smaller ∧
      smaller.fewest ≤ node.count ∧ node.count ≤ smaller.capacity := by
    rw [shouldShrink] at hs
    cases hkind : node.kind <;> rw [hkind] at hs hfew <;>
      simp only [Kind.shrinkAt?, Option.any_some, Option.any_none, decide_eq_true_iff,
        Bool.false_eq_true] at hs <;>
      simp only [Kind.fewest, Kind.shrinkAt?] at hfew <;>
      refine ⟨_, rfl, ?_, ?_⟩ <;> simp only [Kind.fewest, Kind.shrinkAt?, Kind.capacity] <;> omega
  obtain ⟨node', -, hdone, hv, hkind, hcount, hf⟩ := shrink_eq h hk hnum.2
  rw [hdone]
  exact ⟨⟨hv, by rw [hkind, hcount]; exact hnum.1⟩, hf⟩

theorem fewest_le_count (hs : node.shouldShrink = false)
    (hfour : ¬ (node.kind = .four ∧ node.count = 1)) (hfew : node.kind.fewest ≤ node.count + 1) :
    node.kind.fewest ≤ node.count := by
  rw [shouldShrink] at hs
  cases hkind : node.kind <;> rw [hkind] at hs hfew hfour <;>
    simp only [Kind.shrinkAt?, Option.any_some, Option.any_none, decide_eq_false_iff_not,
      true_and] at hs hfour <;>
    simp only [Kind.fewest, Kind.shrinkAt?] at hfew ⊢ <;> omega

/-- A node with enough children for its kind does not shrink. -/
theorem Valid.shouldShrink_eq_false (h : node.Valid) : node.shouldShrink = false := by
  have hfew := h.fewest
  rw [Kind.fewest] at hfew
  rw [shouldShrink]
  cases hs : node.kind.shrinkAt? with
  | none => rfl
  | some n =>
    rw [hs] at hfew
    exact decide_eq_false (Nat.not_le.2 hfew)

end Node

end AdaptiveRadix
