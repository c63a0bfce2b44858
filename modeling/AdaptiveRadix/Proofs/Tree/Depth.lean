/-
How deep the descents go. What one call of a descent does is written with the further calls as
an argument; nested in itself a given number of times, it has no answer where it would have to
call once more. A descent calls itself for children only, and children are less high, so with
more calls than the tree is high it answers, and its answer is the one it is defined to have.
-/
import AdaptiveRadix.Proofs.Tree.Stats
import AdaptiveRadix.Tree.Erase
import AdaptiveRadix.Tree.Insert
import AdaptiveRadix.Tree.Seek
import AdaptiveRadix.Tree.Subtree

namespace AdaptiveRadix

/-- A recursion with a given number of calls nested in one another: `body` does what one call does,
and is given the calls it may make. There is no answer when the calls have run out. -/
def nested {σ β : Type} (body : (σ → Option β) → σ → Option β) : Nat → σ → Option β
  | 0, _ => none
  | calls + 1, state => body (nested body calls) state

namespace Tree

variable {load : Loader} {key start : Key} {value : UInt64} {aim : Aim} {tree child : Tree}
  {node : Node Tree} {byte : UInt8} {calls : Nat}

/-- A tree stands right below another one. -/
inductive ChildOf (child : Tree) : Tree → Prop
  | intro {node : Node Tree} {byte : UInt8} (found : node.find? byte = some child) :
    ChildOf child (.inner node)

theorem ChildOf.height_lt (h : ChildOf child tree) (ht : tree.Every (·.layout.Valid)) :
    child.stats.height < tree.stats.height := by
  cases h with
  | intro found =>
    cases ht with
    | inner valid _ => exact height_lt_of_find? valid found

theorem ChildOf.every {p : Node Tree → Prop} (h : ChildOf child tree) (ht : tree.Every p) :
    child.Every p := by
  cases h with
  | intro found =>
    cases ht with
    | inner _ below => exact below _ _ found

/-- A function that asks itself about children only is computed by its body with more calls nested
than the tree is high. -/
theorem nested_eq {σ β : Type} {body : (σ → Option β) → σ → Option β} {f : σ → β} (tree : σ → Tree)
    (hbody : ∀ call state, (∀ next, ChildOf (tree next) (tree state) → call next = some (f next)) →
      body call state = some (f state)) {state : σ} (ht : (tree state).Every (·.layout.Valid))
    (hcalls : (tree state).stats.height < calls) : nested body calls state = some (f state) := by
  induction calls generalizing state with
  | zero => exact absurd hcalls (Nat.not_lt_zero _)
  | succ calls ih =>
    refine hbody _ state fun next hnext => ih (hnext.every ht) ?_
    have := hnext.height_lt ht
    omega

/-! ## What one call does -/

/-- One call of `insertAt`. -/
def insertCall (load : Loader) (key : Key) (value : UInt64)
    (call : Tree × Nat → Option Insertion) : Tree × Nat → Option Insertion
  | (leaf existing, depth) => some (insertAtLeaf load existing key depth value)
  | (inner node, depth) =>
    let path := node.fullPath load depth
    let matched := Key.commonLength path (key.drop depth)
    if matched < node.path.length then some (insertInPath node path matched key depth value)
    else match key[depth + node.path.length]? with
      | none => some (reject (inner node) (.key .notPrefixFree))
      | some byte =>
        match node.find? byte with
        | none => some (insertInNode node byte value)
        | some child =>
          (call (child, depth + node.path.length + 1)).map fun done =>
            done.within fun child => inner (node.replace byte child)

theorem insertCall_eq (call : Tree × Nat → Option Insertion) (state : Tree × Nat)
    (hcall : ∀ next, ChildOf next.1 state.1 →
      call next = some (next.1.insertAt load key next.2 value)) :
    insertCall load key value call state = some (state.1.insertAt load key state.2 value) := by
  obtain ⟨tree | node, depth⟩ := state
  · rw [insertCall, insertAt]
  · dsimp only at hcall ⊢
    rw [insertCall, insertAt]
    split
    · rfl
    cases key[depth + node.path.length]? with
    | none => rfl
    | some byte =>
      dsimp only
      cases hc : node.find? byte with
      | none => rfl
      | some child => simp only [hcall (child, _) (.intro hc), Option.map_some]

/-- One call of `eraseAt`. -/
def eraseCall (load : Loader) (key : Key) (call : Tree × Nat → Option Erasure) :
    Tree × Nat → Option Erasure
  | (leaf value, _) => some (.unchanged (leaf value) none)
  | (inner node, depth) =>
    if !node.path.inline.isPrefixOf (key.drop depth) then some (.unchanged (inner node) none)
    else match key[depth + node.path.length]? with
      | none => some (.unchanged (inner node) none)
      | some byte =>
        match node.find? byte with
        | none => some (.unchanged (inner node) none)
        | some (leaf value) =>
          if load value = key then
            some ⟨(settle (node.remove byte).2).1, some value, (settle (node.remove byte).2).2⟩
          else some (.unchanged (inner node) none)
        | some (inner child) =>
          (call (inner child, depth + node.path.length + 1)).map fun done =>
            done.within fun child => inner (node.replace byte child)

theorem eraseCall_eq (call : Tree × Nat → Option Erasure) (state : Tree × Nat)
    (hcall : ∀ next, ChildOf next.1 state.1 → call next = some (next.1.eraseAt load key next.2)) :
    eraseCall load key call state = some (state.1.eraseAt load key state.2) := by
  obtain ⟨tree | node, depth⟩ := state
  · rw [eraseCall, eraseAt]
  · dsimp only at hcall ⊢
    rw [eraseCall, eraseAt]
    split
    · rfl
    cases key[depth + node.path.length]? with
    | none => rfl
    | some byte =>
      dsimp only
      rcases hc : node.find? byte with - | (value | child)
      · rfl
      · exact (apply_ite some ..).symm
      · simp only [hcall (inner child, _) (.intro hc), Option.map_some]

/-- One call of `seek`. The ends of a tree beside the way are found in loops, not in calls of it. -/
def seekCall (load : Loader) (key : Key) (aim : Aim)
    (call : Tree × Nat × Bool → Option (Option UInt64)) :
    Tree × Nat × Bool → Option (Option UInt64)
  | (leaf value, depth, skipped) => some (checkLeaf load value key depth skipped aim)
  | (inner node, depth, skipped) =>
    match node.comparePath load key depth aim with
    | .below => some ((inner node).allLess aim)
    | .above | .keyEnds => some ((inner node).allGreater aim)
    | order =>
      match key[depth + node.path.length]? with
      | none => some ((inner node).allGreater aim)
      | some byte =>
        match node.find? byte with
        | none => some (beside node byte aim)
        | some child =>
          (call (child, depth + node.path.length + 1, skipped || order == .skipped)).map
            fun found => found <|> beside node byte aim

theorem seekCall_eq (call : Tree × Nat × Bool → Option (Option UInt64))
    (state : Tree × Nat × Bool)
    (hcall : ∀ next, ChildOf next.1 state.1 →
      call next = some (next.1.seek load key next.2.1 next.2.2 aim)) :
    seekCall load key aim call state = some (state.1.seek load key state.2.1 state.2.2 aim) := by
  obtain ⟨tree | node, depth, skipped⟩ := state
  · rw [seekCall, seek]
  · dsimp only at hcall ⊢
    rw [seekCall, seek]
    cases node.comparePath load key depth aim with
    | below | above | keyEnds => rfl
    | agree | skipped =>
      dsimp only
      cases key[depth + node.path.length]? with
      | none => rfl
      | some byte =>
        dsimp only
        cases hc : node.find? byte with
        | none => rfl
        | some child =>
          simp only [hcall (child, _, _) (.intro hc), Option.map_some, Option.bind_some]

/-- One round of `follow?`, the way to the keys with a given beginning. -/
def followCall (start : Key) (call : Tree × Nat → Option (Option Tree)) :
    Tree × Nat → Option (Option Tree)
  | (leaf value, _) => some (some (leaf value))
  | (inner node, depth) =>
    if start.length ≤ depth then some (some (inner node))
    else
      let inline := node.path.inline
      let rest := start.drop depth
      if inline.take rest.length ≠ rest.take inline.length then some none
      else match start[depth + node.path.length]? with
        | none => some (some (inner node))
        | some byte =>
          match node.find? byte with
          | none => some none
          | some child => call (child, depth + node.path.length + 1)

theorem followCall_eq (call : Tree × Nat → Option (Option Tree)) (state : Tree × Nat)
    (hcall : ∀ next, ChildOf next.1 state.1 → call next = some (next.1.follow? start next.2)) :
    followCall start call state = some (state.1.follow? start state.2) := by
  obtain ⟨tree | node, depth⟩ := state
  · rw [followCall, follow?]
  · dsimp only at hcall ⊢
    rw [followCall, follow?]
    split
    · rfl
    dsimp only
    split
    · rfl
    cases start[depth + node.path.length]? with
    | none => rfl
    | some byte =>
      dsimp only
      cases hc : node.find? byte with
      | none => rfl
      | some child => exact hcall (child, _) (.intro hc)

/-! ## Enough calls -/

/-- From the top of a tree every descent answers within a given number of calls, under any loader. -/
structure EnoughCalls (calls : Nat) (tree : Tree) : Prop where
  insert : ∀ load key value,
    nested (insertCall load key value) calls (tree, 0) = some (tree.insertAt load key 0 value)
  erase : ∀ load key, nested (eraseCall load key) calls (tree, 0) = some (tree.eraseAt load key 0)
  seek : ∀ load key aim,
    nested (seekCall load key aim) calls (tree, 0, false) = some (tree.seek load key 0 false aim)
  follow : ∀ start, nested (followCall start) calls (tree, 0) = some (tree.follow? start 0)

theorem Every.enoughCalls (ht : tree.Every (·.layout.Valid)) (hcalls : tree.stats.height < calls) :
    EnoughCalls calls tree where
  insert _ _ _ := nested_eq Prod.fst insertCall_eq ht hcalls
  erase _ _ := nested_eq Prod.fst eraseCall_eq ht hcalls
  seek _ _ _ := nested_eq Prod.fst seekCall_eq ht hcalls
  follow _ := nested_eq Prod.fst followCall_eq ht hcalls

end Tree

end AdaptiveRadix
