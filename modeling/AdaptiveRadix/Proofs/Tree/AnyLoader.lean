/-
What a change comes to whatever the loader answers. No loader is trusted here: it may give a payload a
key that it was never inserted under, and another one at every step. Yet an insertion puts its payload
at one place of the list of payloads or changes nothing, an erasure takes one out of the list or
changes nothing, and the nodes stay in order, since which bytes they branch by is read off two
different bytes and not off what the keys should be.
-/
import AdaptiveRadix.Proofs.Tree.Erase
import AdaptiveRadix.Proofs.Tree.Growth

namespace AdaptiveRadix

/-- Growth leaves no node with fewer children than its kind is left with. -/
theorem Kind.growthRule_fewest : GrowthRule fun kind count => kind.fewest ≤ count where
  fork := by decide
  add h _ := Nat.le_succ_of_le h
  grow _ hk := (fewest_le hk).trans (Nat.le_succ _)

namespace Tree

variable {tree child : Tree} {node node' : Node Tree} {byte : UInt8} {value : UInt64}

theorem every_valid_insertAt (load : Loader) (key : Key) (depth : Nat) (value : UInt64)
    (h : tree.Every Node.Valid) :
    (tree.insertAt load key depth value).state.Every Node.Valid := by
  have hobeys : tree.Every (Node.Obeys fun kind count => kind.fewest ≤ count) :=
    h.imp fun _ hv => ⟨hv.layout, hv.fewest⟩
  exact (hobeys.insertAt Kind.growthRule_fewest).imp fun _ ho => ⟨ho.layout, ho.count⟩

/-! ## Lists of payloads -/

/-- The payloads of the children that are found under the bytes, in ascending order of the bytes. -/
def listBelow (find? : UInt8 → Option Tree) : List UInt64 :=
  (Probe.entries find?).flatMap fun entry => entry.2.toList

theorem toList_eq_listBelow (h : node.layout.Valid) :
    (inner node).toList = listBelow node.find? := by
  rw [toList_inner, listBelow]
  exact congrArg _ h.entries_eq

/-- Whatever stands under one byte, the payloads before and after it stay the same. -/
theorem listBelow_update (find? : UInt8 → Option Tree) (byte : UInt8) :
    ∃ lo hi, ∀ slot : Option Tree,
      listBelow (Function.update find? byte slot) = lo ++ slot.elim [] toList ++ hi := by
  obtain ⟨lo, hi, -, -, hu⟩ := Probe.entries_update find? byte
  refine ⟨lo.flatMap fun entry => entry.2.toList, hi.flatMap fun entry => entry.2.toList,
    fun slot => ?_⟩
  rw [listBelow, hu, List.flatMap_append, List.flatMap_append]
  cases slot <;> simp

/-- Another child under a byte puts its payloads in the place of those of the old one. -/
theorem toList_update (h : node.layout.Valid) (h' : node'.layout.Valid) {slot : Option Tree}
    (hfind : node'.find? = Function.update node.find? byte slot) :
    ∃ lo hi, (inner node).toList = lo ++ (node.find? byte).elim [] toList ++ hi ∧
      (inner node').toList = lo ++ slot.elim [] toList ++ hi := by
  obtain ⟨lo, hi, hu⟩ := listBelow_update node.find? byte
  refine ⟨lo, hi, ?_, ?_⟩
  · rw [toList_eq_listBelow h, ← hu, Function.update_eq_self]
  · rw [toList_eq_listBelow h', hfind, hu]

theorem listBelow_none : listBelow (fun _ => none) = [] := by
  rw [listBelow, Probe.entries]
  simp

theorem listBelow_single (byte : UInt8) (child : Tree) :
    listBelow (Function.update (fun _ => none) byte (some child)) = child.toList := by
  obtain ⟨lo, hi, hu⟩ := listBelow_update (fun _ => none) byte
  have hnone := hu none
  rw [Function.update_eq_self_iff.2 rfl, listBelow_none, eq_comm, List.append_eq_nil_iff] at hnone
  simp [hu, List.append_eq_nil_iff.1 hnone.1, hnone.2]

/-- In a fork the payloads of one child stand before or after those of the other. -/
theorem toList_fork {x y : UInt8} (hxy : x ≠ y) {old new : Tree} (h : node.layout.Valid)
    (hfind : ∀ b child, node.find? b = some child ↔ b = x ∧ child = old ∨ b = y ∧ child = new) :
    ∃ lo hi, old.toList = lo ++ hi ∧ (inner node).toList = lo ++ new.toList ++ hi := by
  obtain ⟨lo, hi, hu⟩ := listBelow_update node.find? y
  have hnew : node.find? y = some new := (hfind y new).2 (.inr ⟨rfl, rfl⟩)
  have hold : Function.update node.find? y none = Function.update (fun _ => none) x (some old) := by
    funext b
    refine Option.ext fun child => ?_
    by_cases hb : b = y
    · simp [hb, hxy.symm]
    · by_cases hbx : b = x
      · simp [hbx, hxy, hfind, eq_comm]
      · simp [hb, hbx, hfind]
  refine ⟨lo, hi, ?_, ?_⟩
  · have hnone := hu none
    rw [hold, listBelow_single] at hnone
    simpa using hnone
  · have hsome := hu (some new)
    rw [← hnew, Function.update_eq_self, hnew] at hsome
    rw [toList_eq_listBelow h, hsome, Option.elim_some]

/-! ## Insertion -/

/-- What the insertion of a payload comes to: the payload is put between two others, or in the place
of one, or nothing is changed, and then not for want of room. -/
inductive Puts (value : UInt64) (tree : Tree) : Insertion → Prop
  | more {after : Tree} {events : List Event} (lo hi : List UInt64)
      (before_eq : tree.toList = lo ++ hi) (after_eq : after.toList = lo ++ value :: hi) :
      Puts value tree ⟨after, .ok none, events⟩
  | renewed {after : Tree} {events : List Event} (lo hi : List UInt64) {old : UInt64}
      (before_eq : tree.toList = lo ++ old :: hi) (after_eq : after.toList = lo ++ value :: hi) :
      Puts value tree ⟨after, .ok (some old), events⟩
  | refused {reason : InsertError} (room : ∀ full, reason ≠ .noRoom full) :
      Puts value tree (reject tree reason)

theorem puts_branchOff {path : List UInt8} {x y : UInt8} (hxy : x ≠ y) {old : Tree}
    (hold : old.toList = tree.toList) (events : List Event) :
    Puts value tree (branchOff tree path x old y value events) := by
  obtain ⟨fork, heq, hvalid, -, -, -, hfind⟩ := branchOff_eq hxy tree path value events
  obtain ⟨lo, hi, hbefore, hafter⟩ := toList_fork hxy hvalid.layout hfind
  rw [toList_leaf, List.append_assoc, List.singleton_append] at hafter
  rw [heq]
  exact .more lo hi (hold ▸ hbefore) hafter

theorem puts_insertAtLeaf (load : Loader) (existing : UInt64) (key : Key) (depth : Nat)
    (value : UInt64) :
    Puts value (leaf existing) (insertAtLeaf load existing key depth value) := by
  rw [insertAtLeaf]
  split
  · exact .renewed [] [] (toList_leaf existing) (toList_leaf value)
  dsimp only
  split
  · next hx hy =>
    rw [← List.getElem?_drop] at hx hy
    exact puts_branchOff (Key.ne_of_getElem?_commonLength hx hy) rfl []
  · exact .refused (by simp)

theorem puts_insertInPath (node : Node Tree) (path : List UInt8) (key : Key) (depth : Nat)
    (value : UInt64) :
    Puts value (inner node)
      (insertInPath node path (Key.commonLength path (key.drop depth)) key depth value) := by
  rw [insertInPath]
  split
  · exact .refused (by simp)
  · exact .refused (by simp)
  · next hy hx =>
    rw [← List.getElem?_drop] at hy
    refine puts_branchOff (Key.ne_of_getElem?_commonLength hx hy) ?_ _
    rw [toList_inner, toList_inner]
    rfl

theorem puts_insertInNode (h : node.layout.Valid) (hnew : node.find? byte = none) (value : UInt64) :
    Puts value (inner node) (insertInNode node byte value) := by
  obtain ⟨node', events, hadd, hvalid, -, hfind, -⟩ := Node.add_eq_ok h hnew (leaf value)
  obtain ⟨lo, hi, hbefore, hafter⟩ := toList_update h hvalid hfind
  rw [hnew, Option.elim_none, List.append_nil] at hbefore
  rw [Option.elim_some, toList_leaf, List.append_assoc, List.singleton_append] at hafter
  rw [insertInNode, hadd]
  exact .more lo hi hbefore hafter

/-- What is put below a child is put below the node. -/
theorem Puts.within (h : node.layout.Valid) (hc : node.find? byte = some child) {done : Insertion}
    (hd : Puts value child done) :
    Puts value (inner node) (done.within fun child => inner (node.replace byte child)) := by
  have hreplaced (after : Tree) : ∃ lo hi, (inner node).toList = lo ++ child.toList ++ hi ∧
      (inner (node.replace byte after)).toList = lo ++ after.toList ++ hi := by
    obtain ⟨hvalid, hfind, -⟩ := Node.replace_eq h (by rw [hc, Option.isSome_some]) after
    have hlists := toList_update h hvalid hfind
    rwa [hc] at hlists
  cases hd with
  | @more after _ lo hi before_eq after_eq =>
    obtain ⟨lo', hi', hbefore, hafter⟩ := hreplaced after
    refine .more (lo' ++ lo) (hi ++ hi') ?_ ?_
    · simp [hbefore, before_eq]
    · simp [hafter, after_eq]
  | @renewed after _ lo hi _ before_eq after_eq =>
    obtain ⟨lo', hi', hbefore, hafter⟩ := hreplaced after
    refine .renewed (lo' ++ lo) (hi ++ hi') ?_ ?_
    · simp [hbefore, before_eq]
    · simp [hafter, after_eq]
  | refused room =>
    rw [Outcome.within, reject, Outcome.unchanged, Node.replace_self hc]
    exact .refused room

/-- An insertion puts its payload at one place, whatever the loader answers. -/
theorem Every.puts_insertAt (load : Loader) (key : Key) (depth : Nat) (value : UInt64)
    (h : tree.Every Node.Valid) :
    Puts value tree (tree.insertAt load key depth value) := by
  induction h generalizing depth with
  | leaf existing =>
    rw [Tree.insertAt]
    exact puts_insertAtLeaf load existing key depth value
  | @inner node valid _ ih =>
    rw [Tree.insertAt]
    split
    · exact puts_insertInPath node _ key depth value
    split
    · exact .refused (by simp)
    next byte _ =>
    split
    · next hnew => exact puts_insertInNode valid.layout hnew value
    · next child hc => exact (ih byte child hc _).within valid.layout hc

/-! ## Erasure -/

/-- What an erasure comes to: a payload is taken out from between the others, or nothing is changed. -/
inductive Takes (tree : Tree) : Erasure → Prop
  | one {after : Tree} {value : UInt64} {events : List Event} (lo hi : List UInt64)
      (before_eq : tree.toList = lo ++ value :: hi) (after_eq : after.toList = lo ++ hi)
      (valid : after.Every Node.Valid) : Takes tree ⟨after, some value, events⟩
  | nothing : Takes tree (.unchanged tree none)

theorem toList_lift (path : Path) (byte : UInt8) (tree : Tree) :
    (tree.lift path byte).toList = tree.toList := by
  cases tree with
  | leaf value => rfl
  | inner node =>
    rw [lift, toList_inner, toList_inner]
    rfl

theorem every_valid_lift (h : tree.Every Node.Valid) (path : Path) (byte : UInt8) :
    (tree.lift path byte).Every Node.Valid := by
  cases h with
  | leaf value => exact .leaf value
  | inner holds below => exact .inner ⟨holds.layout, holds.fewest⟩ below

/-- A node that has lost a child settles into a tree with the payloads that are left. -/
theorem settle_eq (h : node.layout.Valid) (hfew : node.kind.fewest ≤ node.count + 1)
    (hbelow : ∀ byte child, node.find? byte = some child → child.Every Node.Valid) :
    (settle node).1.toList = (inner node).toList ∧ (settle node).1.Every Node.Valid := by
  rcases settle_cases h hfew with
    ⟨node', hdone, hvalid, -, hfind⟩ | ⟨byte, child, hentries, hdone⟩
  · rw [hdone, toList_eq_listBelow h, toList_eq_listBelow hvalid.layout, hfind]
    exact ⟨rfl, .inner hvalid fun byte child hc => hbelow byte child (hfind ▸ hc)⟩
  · have hc : node.find? byte = some child :=
      (Node.mem_entries h).1 (hentries ▸ List.mem_singleton_self _)
    rw [hdone, toList_lift, toList_inner, hentries, List.flatMap_singleton]
    exact ⟨rfl, every_valid_lift (hbelow byte child hc) node.path byte⟩

theorem takes_settle (h : (inner node).Every Node.Valid) (hc : node.find? byte = some (leaf value))
    (events : List Event) :
    Takes (inner node) ⟨(settle (node.remove byte).2).1, some value, events⟩ := by
  cases h with
  | inner valid below =>
    obtain ⟨hlayout, hcount, hfind⟩ :=
      Node.remove_eq valid.layout (by rw [hc, Option.isSome_some])
    have hfew : (node.remove byte).2.kind.fewest ≤ (node.remove byte).2.count + 1 := by
      rw [Node.kind_remove, hcount]
      exact valid.fewest
    have hbelow : ∀ b child, (node.remove byte).2.find? b = some child → child.Every Node.Valid := by
      intro b child hb
      rw [hfind] at hb
      by_cases hbb : b = byte
      · rw [hbb, Function.update_self] at hb
        cases hb
      · rw [Function.update_of_ne hbb] at hb
        exact below b child hb
    obtain ⟨hlist, hevery⟩ := settle_eq hlayout hfew hbelow
    obtain ⟨lo, hi, hbefore, hafter⟩ := toList_update valid.layout hlayout hfind
    refine .one lo hi ?_ ?_ hevery
    · rw [hbefore, hc, Option.elim_some, toList_leaf, List.append_assoc, List.singleton_append]
    · rw [hlist, hafter, Option.elim_none, List.append_nil]

/-- What is taken out of a child is taken out of the node. -/
theorem Takes.within (h : (inner node).Every Node.Valid) (hc : node.find? byte = some child)
    {done : Erasure} (hd : Takes child done) :
    Takes (inner node) (done.within fun child => inner (node.replace byte child)) := by
  cases h with
  | inner valid below =>
    cases hd with
    | @one after _ _ lo hi before_eq after_eq hevery =>
      obtain ⟨hvalid, hfind⟩ := valid.replace (by rw [hc, Option.isSome_some]) after
      obtain ⟨lo', hi', hbefore, hafter⟩ := toList_update valid.layout hvalid.layout hfind
      refine .one (lo' ++ lo) (hi ++ hi') ?_ ?_ (every_update hvalid hfind below hevery)
      · simp [hbefore, hc, before_eq]
      · simp [hafter, after_eq]
    | nothing =>
      rw [Outcome.within, Outcome.unchanged, Node.replace_self hc]
      exact .nothing

/-- An erasure takes out one payload at most, whatever the loader answers. -/
theorem Every.takes_eraseAt (load : Loader) (key : Key) (depth : Nat)
    (h : tree.Every Node.Valid) :
    Takes tree (tree.eraseAt load key depth) := by
  induction h generalizing depth with
  | leaf value =>
    rw [Tree.eraseAt]
    exact .nothing
  | @inner node valid below ih =>
    rw [Tree.eraseAt]
    split
    · exact .nothing
    split
    · exact .nothing
    next byte _ =>
    split
    · exact .nothing
    · next value hc =>
      split
      · exact takes_settle (.inner valid below) hc _
      · exact .nothing
    · next child hc => exact (ih byte (Tree.inner child) hc _).within (.inner valid below) hc

end Tree

end AdaptiveRadix
