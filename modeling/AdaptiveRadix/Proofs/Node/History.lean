/-
A node through its history. Whatever children have come and gone, and whatever kinds the node has been
of in between, it answers as the map from bytes to children that its history has led to. A node
refuses a child in one case only: it has a place for each child of its kind, all are taken, and the
byte is new.
-/
import AdaptiveRadix.Proofs.Node.Cursor
import AdaptiveRadix.Proofs.Node.Occupied

namespace AdaptiveRadix

namespace Layout

variable {α : Type} {layout : Layout α} {byte : UInt8}

/-- A layout without a place for every byte does not take in a new one when all its places are taken. -/
theorem Valid.insert?_eq_none (h : layout.Valid) (hkind : layout.kind ≠ .full)
    (hfull : layout.count = layout.kind.capacity) (hnew : layout.find? byte = none) (child : α) :
    layout.insert? byte child = none := by
  cases layout with
  | four run =>
    rw [Layout.insert?, SortedSlots.Valid.insert?_eq_none h hnew hfull, Option.map_none]
  | sixteen run =>
    rw [Layout.insert?, SortedSlots.Valid.insert?_eq_none h hnew hfull, Option.map_none]
  | fortyEight table =>
    rw [Layout.insert?, IndexedSlots.Valid.insert?_eq_none h hnew hfull, Option.map_none]
  | full direct => exact absurd rfl hkind

end Layout

namespace Node

variable {α : Type} {node node' : Node α} {byte : UInt8} {child : α}
  {children : UInt8 → Option α}

/-! ## Where there is no place -/

/-- A child under a new byte finds no place. -/
def Refuses (node : Node α) (byte : UInt8) : Prop :=
  node.kind ≠ .full ∧ node.count = node.kind.capacity ∧ node.find? byte = none

theorem insert_of_refuses (h : node.layout.Valid) (hrefuses : node.Refuses byte) (child : α) :
    node.insert byte child = .error ⟨node.kind⟩ := by
  obtain ⟨hkind, hfull, hnew⟩ := hrefuses
  rw [insert, h.insert?_eq_none hkind hfull hnew]

/-- Where a child is not refused, it has a place already or there is one left. -/
theorem place_of_not_refuses (h : node.layout.Valid) (hnot : ¬ node.Refuses byte) (child : α) :
    (node.find? byte).isSome ∨ node.count < node.kind.capacity := by
  cases hnew : node.find? byte with
  | some old => exact .inl rfl
  | none =>
    refine .inr (Nat.lt_of_le_of_ne h.count_le fun hfull => ?_)
    by_cases hkind : node.kind = .full
    · have hlt := Probe.length_entries_lt hnew child
      rw [← count_eq h, hfull, hkind] at hlt
      exact Nat.lt_irrefl _ hlt
    · exact hnot ⟨hkind, hfull, hnew⟩

/-! ## Other kinds, where there is one -/

theorem grow_keeps (h : node.layout.Valid) :
    node.grow.1.layout.Valid ∧ node.grow.1.find? = node.find? ∧
      node.grow.1.kind = node.kind.larger?.getD node.kind := by
  cases hk : node.kind.larger? with
  | none =>
    rw [grow_of_largest hk]
    exact ⟨h, rfl, rfl⟩
  | some kind =>
    obtain ⟨larger, hdone, hv, hkind, -, hf⟩ := grow_eq h hk
    rw [hdone]
    exact ⟨hv, hf, hkind⟩

theorem shrink_keeps (h : node.layout.Valid) (hfits : node.FitsSmaller) :
    node.shrink.1.layout.Valid ∧ node.shrink.1.find? = node.find? ∧
      node.shrink.1.kind = node.kind.smaller?.getD node.kind := by
  cases hk : node.kind.smaller? with
  | none =>
    rw [shrink, shrink?_of_smallest hk]
    exact ⟨h, rfl, rfl⟩
  | some kind =>
    obtain ⟨smaller, -, hdone, hv, hkind, -, hf⟩ := shrink_eq h hk (hfits kind hk)
    rw [hdone]
    exact ⟨hv, hf, hkind⟩

/-! ## Histories -/

/-- A node and the children that its history has put under each byte. -/
inductive History : Node α → (UInt8 → Option α) → Prop
  | empty (path : Path) : History (.empty path) fun _ => none
  | insert {node node' : Node α} {children : UInt8 → Option α} {byte : UInt8} {child : α}
      (h : History node children) (done : node.insert byte child = .ok node') :
      History node' (Function.update children byte (some child))
  | refuse {node : Node α} {children : UInt8 → Option α} {byte : UInt8} {child : α}
      {reason : NoRoom} (h : History node children)
      (refused : node.insert byte child = .error reason) : History node children
  | remove {node : Node α} {children : UInt8 → Option α} (byte : UInt8)
      (h : History node children) :
      History (node.remove byte).2 (Function.update children byte none)
  | replace {node : Node α} {children : UInt8 → Option α} {byte : UInt8} (child : α)
      (h : History node children) (held : (node.find? byte).isSome) :
      History (node.replace byte child) (Function.update children byte (some child))
  | setPath {node : Node α} {children : UInt8 → Option α} (path : Path)
      (h : History node children) : History { node with path } children
  | grow {node : Node α} {children : UInt8 → Option α} (h : History node children) :
      History node.grow.1 children
  | shrink {node : Node α} {children : UInt8 → Option α} (h : History node children)
      (fits : node.FitsSmaller) : History node.shrink.1 children

/-- A node in order finds children as a map from bytes does, and its list of children is that of
the map, from either end and from any byte on. -/
structure Answers (node : Node α) (children : UInt8 → Option α) : Prop where
  layout : node.layout.Valid
  find? : ∀ byte, node.find? byte = children byte
  ascending : node.entries.Pairwise (·.1 < ·.1)
  mem_entries : ∀ byte child, (byte, child) ∈ node.entries ↔ children byte = some child
  count : node.count = node.entries.length
  first? : node.first? = node.entries.head?
  last? : node.last? = node.entries.getLast?
  after? : ∀ byte, node.after? byte = node.entries.find? (byte < ·.1)
  before? : ∀ byte, node.before? byte = node.entries.reverse.find? (·.1 < byte)
  descending : node.descending = node.entries.reverse

theorem answers_of_valid (h : node.layout.Valid) (hf : node.find? = children) :
    node.Answers children where
  layout := h
  find? byte := congrFun hf byte
  ascending := h.ascending
  mem_entries _ _ := hf ▸ Node.mem_entries h
  count := h.count_eq
  first? := h.first?_eq
  last? := h.last?_eq
  after? := h.after?_eq
  before? := h.before?_eq
  descending := descending_eq h

/-- Every change keeps a node in order, with the children that the history has put in it. -/
theorem History.keeps (h : History node children) :
    node.layout.Valid ∧ node.find? = children := by
  induction h with
  | empty path => exact ⟨layout_empty_valid path, funext (find?_empty path)⟩
  | @insert node node' children byte child _ done ih =>
    obtain ⟨hv, rfl⟩ := ih
    by_cases hrefuses : node.Refuses byte
    · cases done.symm.trans (insert_of_refuses hv hrefuses child)
    · obtain ⟨after, hdone, hv', -, -, hf⟩ :=
        insert_of_place hv (place_of_not_refuses hv hrefuses child) child
      cases done.symm.trans hdone
      exact ⟨hv', hf⟩
  | refuse _ _ ih => exact ih
  | remove byte _ ih =>
    obtain ⟨hv, rfl⟩ := ih
    exact (hv.remove byte).2
  | replace child _ held ih =>
    obtain ⟨hv, rfl⟩ := ih
    obtain ⟨hv', hf, -⟩ := replace_eq hv held child
    exact ⟨hv', hf⟩
  | setPath path _ ih => exact ih
  | grow _ ih =>
    obtain ⟨hv, rfl⟩ := ih
    obtain ⟨hv', hf, -⟩ := grow_keeps hv
    exact ⟨hv', hf⟩
  | shrink _ fits ih =>
    obtain ⟨hv, rfl⟩ := ih
    obtain ⟨hv', hf, -⟩ := shrink_keeps hv fits
    exact ⟨hv', hf⟩

/-- After any history a node of any kind answers as the map from bytes to children that the history
has led to. A removal answers the child under its byte and takes out no other; another kind
changes neither the children nor the path, and only a smaller one may be out of reach, for a node
with too many children; and an insertion is refused just where there is no place for a new byte. -/
theorem History.ordered_map (h : History node children) :
    node.Answers children ∧
    (∀ byte, (node.remove byte).1 = children byte ∧
      (node.remove byte).2.Answers (Function.update children byte none) ∧
      (node.remove byte).2.path = node.path ∧ (node.remove byte).2.kind = node.kind) ∧
    (node.grow.1.Answers children ∧ node.grow.1.path = node.path ∧
      node.grow.1.kind = node.kind.larger?.getD node.kind) ∧
    (node.shrink? = none ↔ ¬ node.FitsSmaller) ∧
    (node.FitsSmaller → node.shrink.1.Answers children ∧ node.shrink.1.path = node.path ∧
      node.shrink.1.kind = node.kind.smaller?.getD node.kind) ∧
    ∀ byte child,
      ((∃ reason, node.insert byte child = .error reason) ↔
        node.kind ≠ .full ∧ node.count = node.kind.capacity ∧ children byte = none) ∧
      ∀ node', node.insert byte child = .ok node' →
        node'.Answers (Function.update children byte (some child)) ∧
        node'.path = node.path ∧ node'.kind = node.kind := by
  obtain ⟨hv, rfl⟩ := h.keeps
  refine ⟨answers_of_valid hv rfl, fun byte => ?_, ?_, shrink?_eq_none_iff hv, fun hfits => ?_,
    fun byte child => ?_⟩
  · obtain ⟨hanswer, hv', hf⟩ := hv.remove byte
    exact ⟨hanswer, answers_of_valid hv' hf, rfl, kind_remove node byte⟩
  · obtain ⟨hv', hf, hkind⟩ := grow_keeps hv
    exact ⟨answers_of_valid hv' hf, path_grow node, hkind⟩
  · obtain ⟨hv', hf, hkind⟩ := shrink_keeps hv hfits
    exact ⟨answers_of_valid hv' hf, path_shrink node, hkind⟩
  · by_cases hrefuses : node.Refuses byte
    · have hdone := insert_of_refuses hv hrefuses child
      refine ⟨iff_of_true ⟨_, hdone⟩ hrefuses, fun node' hok => ?_⟩
      cases hdone.symm.trans hok
    · obtain ⟨after, hdone, hv', hp, hk, hf⟩ :=
        insert_of_place hv (place_of_not_refuses hv hrefuses child) child
      refine ⟨iff_of_false (fun ⟨_, herror⟩ => ?_) hrefuses, fun node' hok => ?_⟩
      · cases hdone.symm.trans herror
      · cases hdone.symm.trans hok
        exact ⟨answers_of_valid hv' hf, hp, hk⟩

/-! ## A node of the smallest kind that is full -/

/-- Children under the two ends of all bytes and two between them, put in out of order. -/
def filled : Node Nat :=
  ⟨.ofBytes [97], .four ⟨4, [0, 1, 128, 255], [some 2, some 4, some 3, some 1]⟩⟩

def filledChildren : UInt8 → Option Nat :=
  Function.update (Function.update (Function.update (Function.update (fun _ => none)
    255 (some 1)) 0 (some 2)) 128 (some 3)) 1 (some 4)

theorem history_filled : History filled filledChildren :=
  have one : (Node.empty (.ofBytes [97])).insert 255 1 =
      .ok ⟨.ofBytes [97], .four ⟨1, [255, 0, 0, 0], [some 1, none, none, none]⟩⟩ := rfl
  have two : Node.insert ⟨.ofBytes [97], .four ⟨1, [255, 0, 0, 0], [some 1, none, none, none]⟩⟩ 0 2 =
      .ok ⟨.ofBytes [97], .four ⟨2, [0, 255, 0, 0], [some 2, some 1, none, none]⟩⟩ := rfl
  have three : Node.insert
      ⟨.ofBytes [97], .four ⟨2, [0, 255, 0, 0], [some 2, some 1, none, none]⟩⟩ 128 3 =
      .ok ⟨.ofBytes [97], .four ⟨3, [0, 128, 255, 0], [some 2, some 3, some 1, none]⟩⟩ := rfl
  .insert (.insert (.insert (.insert (.empty _) one) two) three) rfl

/-- There is no place for a fifth child until the node has grown. Without one of its children, and of
the larger kind, it fits the smaller one again. -/
theorem filled_ordered_map :
    (∃ reason, filled.insert 7 5 = .error reason) ∧
      filled.after? 1 = some (128, 3) ∧ filled.grow.1.kind = .sixteen ∧
      (filled.grow.1.remove 0).1 = some 2 ∧
      (filled.grow.1.remove 0).2.shrink.1.Answers (Function.update filledChildren 0 none) ∧
      (filled.grow.1.remove 0).2.shrink.1.kind = .four := by
  obtain ⟨hanswers, -, ⟨-, -, hlarger⟩, -, -, hinsert⟩ := History.ordered_map history_filled
  obtain ⟨-, hremove, -⟩ := History.ordered_map history_filled.grow
  obtain ⟨-, -, -, -, hshrink, -⟩ := History.ordered_map (history_filled.grow.remove 0)
  have hfits : (filled.grow.1.remove 0).2.FitsSmaller := by
    intro kind hkind
    cases hkind
    decide
  obtain ⟨hshrunk, -, hsmaller⟩ := hshrink hfits
  refine ⟨(hinsert 7 5).1.2 ⟨by decide, by decide, by decide⟩, ?_, hlarger,
    (hremove 0).1.trans (by decide), hshrunk, hsmaller⟩
  rw [hanswers.after?]
  rfl

end Node

end AdaptiveRadix
