/-
A node whose children come and go. Each edit adds a child or drops one, and the node changes its
kind only when it has become too full or too empty for it. A change of kind leaves a node that
neither one child more nor one fewer would change again, so no two edits in a row change the kind,
and of any number of edits at most half do.
-/
import AdaptiveRadix.Proofs.Node.Occupied

namespace AdaptiveRadix

namespace Kind

variable {kind other : Kind} {count n : Nat}

/-- How many children a node of a kind has after an edit. -/
def Keeps : Kind → Nat → Prop
  | .four, count => count ≤ 4
  | .sixteen, count => 4 ≤ count ∧ count ≤ 16
  | .fortyEight, count => 13 ≤ count ∧ count ≤ 48
  | .full, count => 38 ≤ count ∧ count ≤ 256

theorem keeps_iff :
    kind.Keeps count ↔ count ≤ kind.capacity ∧ ∀ n, kind.shrinkAt? = some n → n < count := by
  cases kind <;> simp [Keeps, capacity, shrinkAt?] <;> omega

/-- One child more or one fewer is no reason for another kind. -/
def Slack (kind : Kind) (count : Nat) : Prop :=
  count < kind.capacity ∧ ∀ n, kind.shrinkAt? = some n → n + 1 < count

theorem Slack.keeps (h : kind.Slack count) : kind.Keeps count :=
  keeps_iff.2 ⟨h.1.le, fun n hn => (Nat.lt_succ_self n).trans (h.2 n hn)⟩

/-- A node that has just grown has slack. -/
theorem slack_of_larger? (h : kind.larger? = some other) :
    other ≠ kind ∧ other.Slack (kind.capacity + 1) := by
  cases kind <;> cases h <;> simp [Slack, capacity, shrinkAt?]

/-- A node that has just shrunk has slack. -/
theorem slack_of_shrinkAt? (h : kind.shrinkAt? = some n) :
    ∃ other, kind.smaller? = some other ∧ other ≠ kind ∧ other.Slack n := by
  cases kind <;> cases h <;> exact ⟨_, rfl, by simp [Slack, capacity, shrinkAt?]⟩

end Kind

namespace Node

variable {α : Type} {node : Node α} {kind : Kind} {byte : UInt8} {child : α}

/-! ## Edits -/

/-- A change of the children of a node. -/
inductive Edit (α : Type) where
  | add (byte : UInt8) (child : α)
  | drop (byte : UInt8)

/-- The children by byte after an edit. -/
def Edit.update (children : UInt8 → Option α) : Edit α → UInt8 → Option α
  | .add byte child => Function.update children byte (some child)
  | .drop byte => Function.update children byte none

/-- The node after an edit, and what the edit reported. -/
def edit (node : Node α) : Edit α → Except NoRoom (Node α × List Event)
  | .add byte child => node.add byte child
  | .drop byte => .ok (node.drop byte).2

/-- The node after each of some edits, one after another, and what each of them reported. -/
def edits (node : Node α) : List (Edit α) → Except NoRoom (List (Node α × List Event))
  | [] => .ok []
  | e :: es => node.edit e >>= fun after => (after.1.edits es).map (after :: ·)

/-- Which nodes of a row are of another kind than the one before them. -/
def switches : Kind → List Kind → List Bool
  | _, [] => []
  | kind, next :: kinds => decide (next ≠ kind) :: switches next kinds

/-! ## One edit -/

/-- A node in order that has as many children as its kind keeps. -/
structure Fitting (node : Node α) : Prop where
  layout : node.layout.Valid
  keeps : node.kind.Keeps node.count

theorem shouldShrink_eq_true_iff :
    node.shouldShrink = true ↔ ∃ n, node.kind.shrinkAt? = some n ∧ node.count ≤ n := by
  simp [shouldShrink, Option.any_eq_true]

/-- What an edit makes of a node: the children it is to have, and a rebuilt node of another kind only
from a node without slack, and only one that has slack. -/
structure Edited (node : Node α) (e : Edit α) (after : Node α × List Event) : Prop where
  fitting : after.1.Fitting
  find? : after.1.find? = e.update node.find?
  kind : after.1.kind = node.kind ∧ after.2 = [] ∨
    after.1.kind ≠ node.kind ∧ after.2 ≠ [] ∧
      ¬ node.kind.Slack node.count ∧ after.1.kind.Slack after.1.count

theorem Fitting.add_old (h : node.Fitting) (hold : (node.find? byte).isSome) (child : α) :
    ∃ after, node.add byte child = .ok after ∧ Edited node (.add byte child) after := by
  obtain ⟨node', hi, hv, -, hk, hf⟩ := insert_of_place h.layout (.inl hold) child
  have hcount : node'.count = node.count := by
    rw [count_eq hv, count_eq h.layout, hf]
    exact Probe.length_entries_replace hold child
  refine ⟨(node', []), ?_, ⟨hv, ?_⟩, hf, .inl ⟨hk, rfl⟩⟩
  · have hnone : (node.find? byte).isNone = false := by simpa using hold
    rw [add, hnone, Bool.and_false, if_neg Bool.false_ne_true, hi]
    rfl
  · rw [hk, hcount]
    exact h.keeps

theorem Fitting.add_new (h : node.Fitting) (hnew : node.find? byte = none) (child : α) :
    ∃ after, node.add byte child = .ok after ∧ Edited node (.add byte child) after := by
  obtain ⟨node', events, hadd, hv, -, hf, hcount, hkind⟩ := add_eq_ok h.layout hnew child
  refine ⟨(node', events), hadd, ?_⟩
  rcases hkind with ⟨hroom, hk, rfl⟩ | ⟨hfull, hk, rfl⟩
  · have hkeeps := (Kind.keeps_iff.1 h.keeps).2
    refine ⟨⟨hv, ?_⟩, hf, .inl ⟨hk, rfl⟩⟩
    rw [hk, hcount]
    exact Kind.keeps_iff.2 ⟨hroom, fun n hn => Nat.lt_succ_of_lt (hkeeps n hn)⟩
  · obtain ⟨hne, hslack⟩ := Kind.slack_of_larger? hk
    rw [← hfull, ← hcount] at hslack
    exact ⟨⟨hv, hslack.keeps⟩, hf, .inr ⟨hne, by simp, fun hs => hs.1.ne hfull, hslack⟩⟩

/-- A removal takes out one child at most. -/
theorem count_le_count_remove (h : node.layout.Valid) (byte : UInt8) :
    node.count ≤ (node.remove byte).2.count + 1 := by
  cases hold : node.find? byte with
  | none =>
    obtain ⟨hv, hf⟩ := remove_valid h byte
    have hsame : (node.remove byte).2.count = node.count := by
      rw [count_eq hv, count_eq h, hf]
      exact congrArg (fun find? => (Probe.entries find?).length) (hold ▸ Function.update_eq_self ..)
    omega
  | some old =>
    have hone := (remove_eq h (by rw [hold]; rfl)).2.1
    omega

/-- A node with no fewer children than those at which its kind gives way to a smaller one. -/
theorem fit_fitting (h : node.layout.Valid)
    (hfew : ∀ n, node.kind.shrinkAt? = some n → n ≤ node.count) :
    node.fit.1.Fitting ∧ node.fit.1.find? = node.find? ∧
      (node.fit.1.kind = node.kind ∧ node.fit.2 = [] ∨
        node.fit.1.kind ≠ node.kind ∧ node.fit.2 ≠ [] ∧
          node.kind.shrinkAt? = some node.count ∧ node.fit.1.kind.Slack node.fit.1.count) := by
  rw [fit]
  by_cases hs : node.shouldShrink = true
  · obtain ⟨n, hn, hcount⟩ := shouldShrink_eq_true_iff.1 hs
    obtain rfl : n = node.count := (hfew n hn).antisymm hcount
    obtain ⟨smaller, hsmaller, hne, hslack⟩ := Kind.slack_of_shrinkAt? hn
    obtain ⟨node', -, hdone, hv, hkind, hcount', hf⟩ := shrink_eq h hsmaller hslack.1.le
    have hslack' : node'.kind.Slack node'.count := by
      rwa [hkind, hcount']
    rw [if_pos hs, hdone]
    exact ⟨⟨hv, hslack'.keeps⟩, hf, .inr ⟨hkind ▸ hne, by simp, hn, hslack'⟩⟩
  · rw [if_neg hs]
    rw [shouldShrink_eq_true_iff] at hs
    have hkeeps : node.kind.Keeps node.count :=
      Kind.keeps_iff.2 ⟨h.count_le, fun n hn => Nat.lt_of_not_le fun hc => hs ⟨n, hn, hc⟩⟩
    exact ⟨⟨h, hkeeps⟩, rfl, .inl ⟨rfl, rfl⟩⟩

theorem Fitting.drop (h : node.Fitting) (byte : UInt8) :
    Edited node (.drop byte) (node.drop byte).2 := by
  obtain ⟨hv, hf⟩ := remove_valid h.layout byte
  have hcount := count_le_count_remove h.layout byte
  have hkind := kind_remove node byte
  -- The kind kept more children than those at which it gives way, and one has gone at most.
  obtain ⟨hfitting, hfind, hfit⟩ := fit_fitting hv fun n hn => by
    have := (Kind.keeps_iff.1 h.keeps).2 n (hkind ▸ hn)
    omega
  refine ⟨hfitting, hfind.trans hf, ?_⟩
  rw [hkind] at hfit
  refine hfit.imp_right fun ⟨hne, hevents, hlast, hslack⟩ => ⟨hne, hevents, fun hnode => ?_, hslack⟩
  have := hnode.2 _ hlast
  omega

/-- An edit is not refused. -/
theorem Fitting.edit (h : node.Fitting) (e : Edit α) :
    ∃ after, node.edit e = .ok after ∧ Edited node e after := by
  cases e with
  | drop byte => exact ⟨_, rfl, h.drop byte⟩
  | add byte child =>
    cases hfind : node.find? byte with
    | none => exact h.add_new hfind child
    | some old => exact h.add_old (by rw [hfind]; rfl) child

/-! ## Edits one after another -/

/-- Where no two neighbours are both true, at most every other entry is, from the second on if the
first is not. -/
theorem two_mul_count_true_le {l : List Bool} (h : l.IsChain fun a b => ¬ (a = true ∧ b = true)) :
    2 * l.count true ≤ l.length + 1 ∧ (l.head? ≠ some true → 2 * l.count true ≤ l.length) := by
  induction l with
  | nil => simp
  | cons b l ih =>
    obtain ⟨hodd, heven⟩ := ih h.tail
    cases b with
    | false => simpa using ⟨by omega, hodd⟩
    | true =>
      -- The entry after it is not true, so that half the rest is a bound without the one more.
      have hnext : l.head? ≠ some true := by
        intro hhead
        obtain ⟨rest, rfl⟩ := List.head?_eq_some_iff.1 hhead
        simp at h
      have := heven hnext
      simp
      omega

/-- What edits make of a node, one after another. -/
structure Follow (node : Node α) (es : List (Edit α)) (nodes : List (Node α × List Event)) : Prop where
  find? : nodes.map (·.1.find?) = (es.scanl Edit.update node.find?).tail
  fitting : ∀ after ∈ nodes, after.1.Fitting
  reports : nodes.map (!·.2.isEmpty) = switches node.kind (nodes.map (·.1.kind))
  apart : (switches node.kind (nodes.map (·.1.kind))).IsChain fun a b => ¬ (a = true ∧ b = true)
  first : node.kind.Slack node.count →
    (switches node.kind (nodes.map (·.1.kind))).head? ≠ some true

theorem Follow.cons {e : Edit α} {es : List (Edit α)} {after : Node α × List Event}
    {nodes : List (Node α × List Event)} (hedited : Edited node e after)
    (h : Follow after.1 es nodes) : Follow node (e :: es) (after :: nodes) := by
  obtain ⟨hfitting, hfind, hkind⟩ := hedited
  refine ⟨?_, ?_, ?_, ?_, ?_⟩
  · rw [List.map_cons, h.find?, hfind, List.scanl_cons, List.tail_cons]
    cases es <;> simp
  · exact List.forall_mem_cons.2 ⟨hfitting, h.fitting⟩
  · rw [List.map_cons, List.map_cons, switches, h.reports]
    rcases hkind with ⟨hk, hevents⟩ | ⟨hk, hevents, -, -⟩ <;> simp [hk, hevents]
  · rw [List.map_cons, switches]
    refine List.isChain_cons.2 ⟨fun next hnext ⟨hthis, htrue⟩ => ?_, h.apart⟩
    subst htrue
    rcases hkind with ⟨hk, -⟩ | ⟨-, -, -, hslack⟩
    · simp [hk] at hthis
    · exact h.first hslack hnext
  · intro hslack
    rcases hkind with ⟨hk, -⟩ | ⟨-, -, hnot, -⟩
    · simp [switches, hk]
    · exact absurd hslack hnot

/-- A run of edits is never refused, and each edit keeps the node fitting. -/
theorem Fitting.edits (h : node.Fitting) (es : List (Edit α)) :
    ∃ nodes, node.edits es = .ok nodes ∧ Follow node es nodes := by
  induction es generalizing node with
  | nil => exact ⟨[], rfl, rfl, by simp, rfl, .nil, by simp [switches]⟩
  | cons e es ih =>
    obtain ⟨after, hdone, hedited⟩ := h.edit e
    obtain ⟨nodes, hrest, hfollow⟩ := ih hedited.fitting
    refine ⟨after :: nodes, ?_, hfollow.cons hedited⟩
    rw [Node.edits, hdone]
    exact congrArg (Except.map (after :: ·)) hrest

theorem length_switches (kind : Kind) (kinds : List Kind) :
    (switches kind kinds).length = kinds.length := by
  induction kinds generalizing kind with
  | nil => rfl
  | cons next kinds ih => rw [switches, List.length_cons, ih, List.length_cons]

/-- A node without children takes any edits, one after another, and has after each of them the children
it is to have, as many as its kind keeps. An edit that changes the kind is one that reports so;
no two of these stand side by side, and so at most every other edit is one. -/
theorem edits_never_thrash (path : Path) (es : List (Edit α)) :
    ∃ nodes, (empty path).edits es = .ok nodes ∧ nodes.length = es.length ∧
      nodes.map (·.1.find?) = (es.scanl Edit.update fun _ => none).tail ∧
      (∀ after ∈ nodes, after.1.count = after.1.entries.length ∧
        after.1.kind.Keeps after.1.count) ∧
      let switched := switches .four (nodes.map (·.1.kind))
      nodes.map (!·.2.isEmpty) = switched ∧
      (switched.IsChain fun this next => ¬ (this = true ∧ next = true)) ∧
      2 * switched.count true ≤ es.length := by
  have hkeeps : Kind.four.Keeps 0 := Nat.zero_le 4
  have hslack : Kind.four.Slack 0 := ⟨by decide, nofun⟩
  have hempty : (empty path : Node α).Fitting := ⟨layout_empty_valid path, hkeeps⟩
  obtain ⟨nodes, hdone, hfollow⟩ := hempty.edits es
  have hfind : (empty path : Node α).find? = fun _ => none := funext (find?_empty path)
  have hchildren := hfind ▸ hfollow.find?
  have hlength : nodes.length = es.length := by
    simpa using congrArg List.length hchildren
  refine ⟨nodes, hdone, hlength, hchildren, fun after hafter => ?_, hfollow.reports, hfollow.apart, ?_⟩
  · have hfitting := hfollow.fitting after hafter
    exact ⟨hfitting.layout.count_eq, hfitting.keeps⟩
  · have hhalf := (two_mul_count_true_le hfollow.apart).2 (hfollow.first hslack)
    rwa [length_switches, List.length_map, hlength] at hhalf

/-- The fifth child makes the node grow, and it shrinks when three are left, not when four are. -/
example :
    ((empty (.ofBytes [97])).edits
        [.add 1 'a', .add 2 'b', .add 3 'c', .add 4 'd', .add 5 'e', .drop 2, .drop 4,
          .add 2 'f']).map (·.map fun after => (after.1.kind, after.1.count, after.2)) =
      .ok [(.four, 1, []), (.four, 2, []), (.four, 3, []), (.four, 4, []),
        (.sixteen, 5, [.grew .four .sixteen 4]), (.sixteen, 4, []),
        (.four, 3, [.shrank .sixteen .four 3]), (.four, 4, [])] := by
  cbv

end Node

end AdaptiveRadix
