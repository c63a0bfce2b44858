/-
The check of a tree has nothing to say against one that fits its loader: every node is
occupied as its kind demands, its layout is in order, and the bytes that lead to a leaf stand in
the leaf's key.
-/
import AdaptiveRadix.Proofs.Tree.Stats
import AdaptiveRadix.Tree.Integrity

namespace AdaptiveRadix

variable {α : Type}

/-! ## One node -/

theorem SortedSlots.Valid.issues_eq_nil {run : SortedSlots α} {kind : Kind}
    (h : run.Valid kind.capacity) (depth : Nat) : run.issues kind depth = [] := by
  have hfree : (run.slots.drop run.count).all Option.isNone := by
    rw [List.all_eq_true]
    exact fun slot hs => by rw [h.free slot hs, Option.isNone_none]
  rw [issues, if_pos h.ascending, if_pos hfree, List.append_nil]

namespace IndexedSlots

variable {table : IndexedSlots α}

theorem Valid.entryIssues_eq_nil (h : table.Valid) (depth : Nat) {bytes : List UInt8}
    {used : List (Fin 48)} (hn : bytes.Nodup)
    (hu : ∀ byte ∈ bytes, ∀ slot ∈ used, table.slotOf? byte ≠ some slot) :
    table.entryIssues depth bytes used = [] := by
  induction bytes generalizing used with
  | nil => rfl
  | cons byte bytes ih =>
    obtain ⟨hnot, hn⟩ := List.nodup_cons.1 hn
    have hrest := List.forall_mem_cons.1 hu
    rw [entryIssues]
    cases hs : table.slotOf? byte with
    | none => exact ih hn hrest.2
    | some slot =>
      have hchild : ¬ (table.find? byte).isNone := by
        rw [Option.isNone_iff_eq_none, ← ne_eq, ← Option.isSome_iff_ne_none]
        exact h.isSome_find? hs
      have hfresh : slot ∉ used := fun hm => hrest.1 slot hm hs
      have hothers : ∀ b ∈ bytes, ∀ s ∈ slot :: used, table.slotOf? b ≠ some s := by
        intro b hb s hm hbs
        rcases List.mem_cons.1 hm with rfl | hm
        · exact hnot (h.injective b byte s hbs hs ▸ hb)
        · exact hrest.2 b hb s hm hbs
      simp only [if_neg hchild, if_neg hfresh, ih hn hothers, List.append_nil]

/-- Every slot with a child has its byte. -/
theorem Valid.countP_unindexed (h : table.Valid) :
    (table.slots.toList.zipIdx.countP fun (slot, i) =>
      slot.isSome && !table.used.any (·.val == i)) = 0 := by
  rw [List.countP_eq_zero]
  rintro ⟨slot, i⟩ hm
  rw [List.mem_zipIdx_iff_getElem?, Array.getElem?_toList] at hm
  cases slot with
  | none => simp
  | some child =>
    have hlt : i < 48 := h.slots_size ▸ (Array.getElem?_eq_some_iff.1 hm).1
    have hchild : table.childAt? ⟨i, hlt⟩ = some child := by rw [childAt?, hm, Option.join_some]
    have hused : (⟨i, hlt⟩ : Fin 48) ∈ table.used :=
      mem_used.2 (h.covered ⟨i, hlt⟩ (by rw [hchild, Option.isSome_some]))
    have hany : table.used.any (·.val == i) = true := by
      rw [List.any_eq_true]
      exact ⟨_, hused, beq_self_eq_true i⟩
    simp [hany]

theorem Valid.issues_eq_nil (h : table.Valid) (depth : Nat) : table.issues depth = [] := by
  have hentries : table.entryIssues depth Probe.allBytes [] = [] :=
    h.entryIssues_eq_nil depth (Probe.pairwise_allBytes.imp UInt8.ne_of_lt)
      fun _ _ _ hm => absurd hm List.not_mem_nil
  have hunindexed := h.countP_unindexed
  rw [used] at hunindexed
  rw [issues, hentries]
  simp only [hunindexed, if_true, List.append_nil]

end IndexedSlots

theorem Layout.Valid.issues_eq_nil {layout : Layout α} (h : layout.Valid) (depth : Nat) :
    layout.issues depth = [] := by
  cases layout with
  | four run => exact SortedSlots.Valid.issues_eq_nil h depth
  | sixteen run => exact SortedSlots.Valid.issues_eq_nil h depth
  | fortyEight table => exact IndexedSlots.Valid.issues_eq_nil h depth
  | full direct => rfl

theorem Node.Valid.issues_eq_nil {node : Node α} (h : node.Valid) (depth : Nat) :
    node.issues depth = [] := by
  have hcount : node.entries.length = node.count := h.layout.count_eq.symm
  rw [issues, if_pos ⟨h.fewest, h.layout.count_le⟩, if_pos hcount, h.layout.issues_eq_nil]
  rfl

/-! ## The whole tree -/

variable {load : Loader} {above : Key} {tree : Tree}

theorem leafIssues_eq_nil {value : UInt64} {places : List (Nat × UInt8)}
    (hstart : above <+: load value) (hplaces : ∀ place ∈ places, above[place.1]? = some place.2) :
    leafIssues load value above.length places = [] := by
  unfold leafIssues
  rw [if_neg (Nat.not_lt.2 hstart.length_le), List.nil_append]
  split
  · next position byte hf =>
    have hplace := Key.getElem?_of_isPrefix hstart (hplaces _ (List.mem_of_find?_eq_some hf))
    have hstray := List.find?_some hf
    simp [hplace] at hstray
  · rfl

namespace Tree

theorem issuesAt_leaf (load : Loader) (value : UInt64) (depth : Nat) (places : List (Nat × UInt8)) :
    (leaf value).issuesAt load depth places = leafIssues load value depth places := by
  rw [issuesAt, fold_leaf]

theorem issuesAt_inner (load : Loader) (node : Node Tree) (depth : Nat)
    (places : List (Nat × UInt8)) :
    (inner node).issuesAt load depth places =
      node.issues depth ++ node.entries.flatMap fun entry =>
        entry.2.issuesAt load (depth + node.path.length + 1)
          (places ++ node.path.positions depth ++ [(depth + node.path.length, entry.1)]) := by
  rw [issuesAt, fold_inner, List.flatMap_map]
  rfl

/-- The bytes that lead to a child of a node are those that the node stands for. -/
theorem Spans.places {path : List UInt8} {node : Node Tree} (h : Spans load above path node)
    {places : List (Nat × UInt8)} (hplaces : ∀ place ∈ places, above[place.1]? = some place.2)
    (byte : UInt8) :
    ∀ place ∈ places ++ node.path.positions above.length ++
      [(above.length + node.path.length, byte)],
      (above ++ path ++ [byte])[place.1]? = some place.2 := by
  intro place hm
  rw [List.append_assoc, List.mem_append, List.mem_append, List.mem_singleton] at hm
  rcases hm with hm | hm | rfl
  · exact Key.getElem?_of_isPrefix (by rw [List.append_assoc]; exact List.prefix_append ..)
      (hplaces place hm)
  · rw [Path.positions, h.inline_path, List.mem_map] at hm
    obtain ⟨⟨b, i⟩, hb, rfl⟩ := hm
    rw [List.mem_zipIdx_iff_getElem?] at hb
    have hpath := Key.getElem?_of_isPrefix (List.take_prefix ..) hb
    rw [List.append_assoc, Key.getElem?_append_add]
    exact Key.getElem?_of_isPrefix (List.prefix_append ..) hpath
  · rw [List.append_assoc, h.getElem?_append, List.head?_cons]

theorem Fits.issuesAt_eq_nil (h : tree.Fits load above) {places : List (Nat × UInt8)}
    (hplaces : ∀ place ∈ places, above[place.1]? = some place.2) :
    tree.issuesAt load above.length places = [] := by
  induction h generalizing places with
  | leaf starts => rw [issuesAt_leaf, leafIssues_eq_nil starts hplaces]
  | @inner above node path valid path_eq below ih =>
    have h : Spans load above path node := ⟨valid, path_eq, below⟩
    rw [issuesAt_inner, valid.issues_eq_nil, List.nil_append, List.flatMap_eq_nil_iff]
    intro entry he
    have hc := (Node.mem_entries valid.layout).1 he
    rw [← h.length_branch entry.1]
    exact ih entry.1 entry.2 hc (h.places hplaces entry.1)

/-! ## The order of the keys -/

theorem orderIssues_eq_nil {values : List UInt64}
    (h : values.Pairwise fun v w => load v < load w) : orderIssues load values = [] := by
  induction values with
  | nil => rfl
  | cons v values ih =>
    cases values with
    | nil => rfl
    | cons w values =>
      obtain ⟨hv, hrest⟩ := List.pairwise_cons.1 h
      rw [orderIssues, if_pos (hv w List.mem_cons_self), ih hrest, List.append_nil]

end Tree

end AdaptiveRadix
