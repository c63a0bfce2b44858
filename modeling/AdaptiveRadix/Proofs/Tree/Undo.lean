/-
Erasing a key right after it has come in. The node that got the new leaf loses it again and is then
what it was: a fork gives way to the tree it was put above, which gets back what the fork took of
its path, and any other node has the children it had. Only a node that had to grow is not what it
was. The number of children at which it would shrink again lies below the number at which it
grew, so it stays of the larger kind.
-/
import AdaptiveRadix.Proofs.Path.Join
import AdaptiveRadix.Proofs.Tree.Erase
import AdaptiveRadix.Proofs.Tree.Insert

namespace AdaptiveRadix.Tree

variable {load : Loader} {above path address : List UInt8} {tree child child' : Tree}
  {node node' : Node Tree} {byte : UInt8} {value : UInt64} {kind : Option Kind} {done : Insertion}

/-! ## The kinds of the nodes -/

/-- The kind of the node that branch bytes lead to from the top of a tree. -/
def kindAt? : Tree → List UInt8 → Option Kind
  | leaf _, _ => none
  | inner node, [] => some node.kind
  | inner node, byte :: address => (node.find? byte).bind (·.kindAt? address)

/-- Nodes with the same kinds below them differ in their own at most. -/
theorem kindAt?_eq_update
    (h : ∀ byte address, (node'.find? byte).bind (·.kindAt? address) =
      (node.find? byte).bind (·.kindAt? address)) :
    (inner node').kindAt? = Function.update (inner node).kindAt? [] (some node'.kind) := by
  funext address
  cases address with
  | nil => rw [Function.update_self, kindAt?]
  | cons byte address =>
    rw [Function.update_of_ne (List.cons_ne_nil _ _), kindAt?, kindAt?]
    exact h byte address

theorem kindAt?_eq_self (hkind : node'.kind = node.kind)
    (h : ∀ byte address, (node'.find? byte).bind (·.kindAt? address) =
      (node.find? byte).bind (·.kindAt? address)) :
    (inner node').kindAt? = (inner node).kindAt? := by
  rw [kindAt?_eq_update h, hkind]
  exact Function.update_eq_self [] _

/-- A new leaf brings in no kind. -/
theorem below_leaf_eq (hfind : node'.find? = Function.update node.find? byte (some (leaf value)))
    (hnew : node.find? byte = none) (b : UInt8) (address : List UInt8) :
    (node'.find? b).bind (·.kindAt? address) = (node.find? b).bind (·.kindAt? address) := by
  rw [hfind]
  by_cases hb : b = byte
  · rw [hb, Function.update_self, hnew, Option.bind_some, kindAt?, Option.bind_none]
  · rw [Function.update_of_ne hb]

/-- A node has one kind below it changed when its child there has. -/
theorem kindAt?_update (hkind : node'.kind = node.kind) (hc : node.find? byte = some child)
    (hfind : node'.find? = Function.update node.find? byte (some child'))
    (h : child'.kindAt? = Function.update child.kindAt? address kind) :
    (inner node').kindAt? = Function.update (inner node).kindAt? (byte :: address) kind := by
  funext a
  cases a with
  | nil => rw [Function.update_of_ne (List.cons_ne_nil _ _).symm, kindAt?, kindAt?, hkind]
  | cons b a =>
    rw [kindAt?, hfind]
    by_cases hb : b = byte
    · rw [hb, Function.update_self, Option.bind_some, h]
      simp only [Function.update_apply, List.cons.injEq, true_and, kindAt?, hc, Option.bind_some]
    · rw [Function.update_of_ne hb, Function.update_of_ne (by simp [hb]), kindAt?]

theorem kindAt?_congr (hkind : node'.kind = node.kind) (hc : node.find? byte = some child)
    (hfind : node'.find? = Function.update node.find? byte (some child'))
    (h : child'.kindAt? = child.kindAt?) : (inner node').kindAt? = (inner node).kindAt? := by
  refine kindAt?_eq_self hkind fun b address => ?_
  rw [hfind]
  by_cases hb : b = byte
  · rw [hb, Function.update_self, hc, Option.bind_some, Option.bind_some, h]
  · rw [Function.update_of_ne hb]

/-- The kinds of the nodes before an insertion, after it, and after what came in has been erased. They
are back to what they were; or else, as was reported, one node had no room and became one of
the next larger kind, which is the only change and stays. -/
inductive Restores (before between after : List UInt8 → Option Kind) : List Event → Prop
  | all {events : List Event} (quiet : ∀ old new count, Event.grew old new count ∉ events)
      (restored : after = before) : Restores before between after events
  | allBut {address : List UInt8} {kind larger : Kind} (was : before address = some kind)
      (next : kind.larger? = some larger)
      (grew : between = Function.update before address (some larger))
      (kept : after = between) : Restores before between after [.grew kind larger kind.capacity]

namespace Restores

variable {before between after : List UInt8 → Option Kind} {events : List Event}

theorem of_quiet (h : Restores before between after events)
    (hquiet : ∀ old new count, Event.grew old new count ∉ events) : after = before := by
  cases h with
  | all _ restored => exact restored
  | allBut => exact absurd (List.mem_singleton_self _) (hquiet _ _ _)

theorem of_grew {kind larger : Kind} {count : Nat}
    (h : Restores before between after [.grew kind larger count]) :
    ∃ address, before address = some kind ∧
      between = Function.update before address (some larger) ∧ after = between := by
  cases h with
  | all quiet _ => exact absurd (List.mem_singleton_self _) (quiet _ _ _)
  | allBut was _ grew kept => exact ⟨_, was, grew, kept⟩

end Restores

/-! ## The node that loses the new leaf -/

/-- A fork from which the new leaf is taken gives way to the old tree, lifted into its place. -/
theorem eraseAt_branchOff {old : Tree} {x y : UInt8} (hold : old.Fits load (above ++ path ++ [x]))
    (hxy : x ≠ y) (hy : above ++ path ++ [y] <+: load value)
    (hcheck : Key.check (load value) = .ok ()) (tree : Tree) (events : List Event) :
    ∃ fork, branchOff tree path x old y value events = ⟨inner fork, .ok none, events⟩ ∧
      ((inner fork).eraseAt load (load value) above.length).state = old.lift (.ofBytes path) x := by
  obtain ⟨fork, heq, hspans, hkind, hcount, hfind⟩ := spans_branchOff hold hxy hy hcheck tree events
  have hx : fork.find? x = some old := (hfind x old).2 (.inl ⟨rfl, rfl⟩)
  have hleaf : fork.find? y = some (leaf value) := (hfind y _).2 (.inr ⟨rfl, rfl⟩)
  obtain ⟨hlayout, hcount', hrest⟩ :=
    Node.remove_eq hspans.valid.layout (by rw [hleaf, Option.isSome_some])
  have honly : (fork.remove y).2.entries = [(x, old)] := by
    refine Node.entries_eq_singleton hlayout (by omega) ?_
    rw [hrest, Function.update_of_ne hxy, hx]
  refine ⟨fork, heq, ?_⟩
  rw [hspans.eraseAt_eq hy, hleaf]
  simp only [if_true]
  rw [settle_of_only hlayout ((Node.kind_remove fork y).trans hkind) honly]
  exact congrArg (old.lift · x) hspans.path_eq

/-- What a fork took of a path comes back. -/
theorem Spans.lift_cut {p p' : List UInt8} {x : UInt8} (h : Spans load above (p ++ x :: p') node) :
    (inner { node with path := .ofBytes p' }).lift (.ofBytes p) x = inner node := by
  have hlt := h.length_lt_size
  rw [List.length_append, List.length_cons] at hlt
  exact lift_ofBytes (by omega) h.path_eq

/-- A node from which the new leaf is taken has the children it had, and it stays of the kind it has,
also when that is the larger one. -/
theorem Spans.restores_insertInNode (h : Spans load above path node)
    (hkey : above ++ path ++ [byte] <+: load value) (hcheck : Key.check (load value) = .ok ())
    (hnew : node.find? byte = none) :
    ∃ node', (insertInNode node byte value).state = inner node' ∧
      Restores (inner node).kindAt? (inner node').kindAt?
        ((inner node').eraseAt load (load value) above.length).state.kindAt?
        (insertInNode node byte value).events := by
  obtain ⟨node', events, hadd, hlayout, hpath, hfind, hcount, hkind⟩ :=
    Node.add_eq_ok h.valid.layout hnew (leaf value)
  have hfew : node'.kind.fewest ≤ node.count :=
    h.valid.fewest_add (hkind.imp (·.2.1) fun hg => ⟨hg.1, hg.2.1⟩)
  have hleaf : node'.find? byte = some (leaf value) := by rw [hfind, Function.update_self]
  have hspans : Spans load above path node' :=
    h.update ⟨hlayout, hcount ▸ hfew.trans (Nat.le_succ _)⟩ hpath hfind (.leaf hkey hcheck)
  obtain ⟨hlayout', hcount', hfind'⟩ := Node.remove_eq hlayout (by rw [hleaf, Option.isSome_some])
  have hback : (node'.remove byte).2.find? = node.find? := by
    rw [hfind', hfind, Function.update_idem, ← hnew, Function.update_eq_self]
  have hvalid : (node'.remove byte).2.Valid := by
    refine ⟨hlayout', ?_⟩
    rw [Node.kind_remove]
    omega
  refine ⟨node', by rw [insertInNode, hadd], ?_⟩
  rw [hspans.eraseAt_eq hkey, hleaf, insertInNode, hadd]
  simp only [if_true]
  rw [settle_of_valid hvalid]
  rcases hkind with ⟨-, hk, rfl⟩ | ⟨-, hk, rfl⟩
  · refine .all (fun _ _ _ => List.not_mem_nil) (kindAt?_eq_self ?_ fun _ _ => by rw [hback])
    rw [Node.kind_remove, hk]
  · have htop : (inner node).kindAt? [] = some node.kind := by rw [kindAt?]
    refine .allBut htop hk (kindAt?_eq_update (below_leaf_eq hfind hnew)) ?_
    refine kindAt?_eq_self (Node.kind_remove node' byte) fun b address => ?_
    rw [hback, below_leaf_eq hfind hnew]

/-! ## The descent -/

/-- What the erasure restores below a child it restores below the node. -/
theorem Spans.restores_within (h : Spans load above path node)
    (hkey : above ++ path ++ [byte] <+: load value) (hc : node.find? byte = some child)
    {below : Node Tree} (hfits : (inner below).Fits load (above ++ path ++ [byte]))
    {events : List Event}
    (hr : Restores child.kindAt? (inner below).kindAt?
      ((inner below).eraseAt load (load value) (above ++ path ++ [byte]).length).state.kindAt?
      events) :
    Restores (inner node).kindAt? (inner (node.replace byte (inner below))).kindAt?
      ((inner (node.replace byte (inner below))).eraseAt load (load value)
        above.length).state.kindAt? events := by
  obtain ⟨hvalid, hfind⟩ := h.valid.replace (by rw [hc, Option.isSome_some]) (inner below)
  have hspans := h.update hvalid rfl hfind hfits
  have hchild : (node.replace byte (inner below)).find? byte = some (inner below) := by
    rw [hfind, Function.update_self]
  rw [hspans.eraseAt_eq hkey, hchild]
  obtain ⟨-, hfind'⟩ := hvalid.replace (by rw [hchild, Option.isSome_some])
    ((inner below).eraseAt load (load value) (above ++ path ++ [byte]).length).state
  have hkind := Node.kind_replace node byte (inner below)
  cases hr with
  | all quiet restored =>
    refine .all quiet (kindAt?_congr ?_ hc ?_ restored)
    · exact (Node.kind_replace ..).trans hkind
    · rw [hfind', hfind, Function.update_idem]
  | allBut was next grew kept =>
    refine .allBut ?_ next (kindAt?_update hkind hc hfind grew) ?_
    · rw [kindAt?, hc, Option.bind_some]
      exact was
    · exact kindAt?_congr (Node.kind_replace ..) hchild hfind' kept

/-- What a new key has brought into a tree its erasure takes out again. -/
theorem Attempt.restores (h : Attempt load (load value) value above tree done)
    (hcheck : Key.check (load value) = .ok ()) (hfree : ¬ Clashes load tree (load value))
    (hnew : ∀ v ∈ tree.toList, load v ≠ load value) :
    ∃ node, done.state = inner node ∧
      Restores tree.kindAt? (inner node).kindAt?
        ((inner node).eraseAt load (load value) above.length).state.kindAt? done.events := by
  induction h with
  | clash clashes => exact absurd clashes hfree
  | renew starts same => exact absurd same (hnew _ (by rw [toList_leaf, List.mem_singleton]))
  | @part above path existing x y old ne branch =>
    obtain ⟨fork, hdone, herased⟩ := eraseAt_branchOff old ne branch hcheck (leaf existing) []
    rw [hdone]
    refine ⟨fork, rfl, .all (fun _ _ _ => List.not_mem_nil) ?_⟩
    rw [herased, lift]
  | @cut above p p' node x y old ne branch =>
    obtain ⟨fork, hdone, herased⟩ := eraseAt_branchOff old.cut.1 ne branch hcheck (inner node)
      [.split node.path.length p.length above.length]
    rw [hdone]
    refine ⟨fork, rfl, .all (fun _ _ _ => by simp) ?_⟩
    rw [herased, old.lift_cut]
  | extend spans branch new => exact spans.restores_insertInNode branch hcheck new
  | @descend above path node byte child done spans branch old below ih =>
    have hfree : ¬ Clashes load child (load value) :=
      fun hclash => hfree ((spans.clashes_iff branch old).2 hclash)
    have hnew : ∀ v ∈ child.toList, load v ≠ load value :=
      fun v hv => hnew v (spans.mem_toList.2 ⟨byte, child, old, hv⟩)
    obtain ⟨node', hdone, hr⟩ := ih hfree hnew
    have hfits := (below.gains hcheck hfree).fits
    rw [hdone] at hfits
    refine ⟨node.replace byte (inner node'), by rw [Outcome.within, hdone], ?_⟩
    exact spans.restores_within branch old hfits hr

end AdaptiveRadix.Tree
