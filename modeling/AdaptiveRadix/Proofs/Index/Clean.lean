/-
What it means that the check of an index finds nothing, under any loader. The check holds the branch
bytes and the stored bytes of the paths against the key of every leaf below, and so an optimistic
search for the key of a leaf arrives at the leaf. The bytes of a path that are not stored it holds
against nothing: a pessimistic search reads them in the key of the smallest leaf below, and turns
away a key that has other bytes there, although its payload is in the index.
-/
import AdaptiveRadix.Proofs.Index.AnyLoader

namespace AdaptiveRadix

variable {load : Loader} {v : UInt64} {policy : Policy}

namespace Tree

variable {root tree child : Tree} {node : Node Tree} {byte : UInt8} {depth : Nat}
  {places : List (Nat × UInt8)} {skipped : Bool}

/-! ## What the check has seen -/

theorem of_leafIssues_eq_nil (h : leafIssues load v depth places = []) :
    depth ≤ (load v).length ∧ ∀ place ∈ places, (load v)[place.1]? = some place.2 := by
  rw [leafIssues, List.append_eq_nil_iff] at h
  obtain ⟨hlength, hplaces⟩ := h
  constructor
  · by_contra hlt
    rw [if_pos (Nat.lt_of_not_le hlt)] at hlength
    cases hlength
  · split at hplaces
    · cases hplaces
    · next hnone =>
      intro place hmem
      simpa using List.find?_eq_none.1 hnone place hmem

theorem issuesAt_child (valid : node.layout.Valid) (h : (inner node).issuesAt load depth places = [])
    (hc : node.find? byte = some child) :
    child.issuesAt load (depth + node.path.length + 1)
      (places ++ node.path.positions depth ++ [(depth + node.path.length, byte)]) = [] := by
  rw [issuesAt_inner, List.append_eq_nil_iff, List.flatMap_eq_nil_iff] at h
  exact h.2 (byte, child) ((Node.mem_entries valid).2 hc)

/-- In a tree without issues no key ends above its leaf, and each has the bytes that lead there. -/
theorem Every.of_issuesAt_eq_nil (ht : tree.Every (·.layout.Valid))
    (h : tree.issuesAt load depth places = []) (hv : v ∈ tree.toList) :
    depth ≤ (load v).length ∧ ∀ place ∈ places, (load v)[place.1]? = some place.2 := by
  induction ht generalizing depth places with
  | leaf value =>
    rw [toList_leaf, List.mem_singleton] at hv
    subst hv
    rw [issuesAt_leaf] at h
    exact of_leafIssues_eq_nil h
  | inner valid _ ih =>
    obtain ⟨byte, child, hc, hv⟩ := (mem_toList_inner valid).1 hv
    obtain ⟨hlength, hplaces⟩ := ih byte child hc (issuesAt_child valid h hc) hv
    exact ⟨by omega, fun place hm => hplaces place (by simp [hm])⟩

/-- Below a node without issues each key has the bytes of the node's path that are stored, and goes on
with the byte of its branch. -/
theorem branch_of_issuesAt_eq_nil (ht : (inner node).Every (·.layout.Valid))
    (h : (inner node).issuesAt load depth places = []) (hc : node.find? byte = some child)
    (hv : v ∈ child.toList) :
    node.path.inline <+: (load v).drop depth ∧
      (load v)[depth + node.path.length]? = some byte := by
  cases ht with
  | inner valid below =>
    obtain ⟨-, hplaces⟩ := (below byte child hc).of_issuesAt_eq_nil (issuesAt_child valid h hc) hv
    refine ⟨List.prefix_iff_getElem?.2 fun i hi => ?_,
      hplaces _ (List.mem_append_right _ (List.mem_singleton_self _))⟩
    rw [List.getElem?_drop]
    refine hplaces (depth + i, node.path.inline[i]) ?_
    refine List.mem_append_left _ (List.mem_append_right _ (List.mem_map.2 ?_))
    exact ⟨(node.path.inline[i], i), List.mk_mem_zipIdx_iff_getElem?.2 (by simp), rfl⟩

/-! ## Where a search leaves the tree -/

/-- What a search for a key compares of a path. -/
def seenOf (load : Loader) (node : Node Tree) (depth : Nat) : Policy → List UInt8
  | .optimistic => node.path.inline
  | .pessimistic => node.fullPath load depth

theorem comparePath_exact {key : Key} :
    (node.comparePath load key depth (.exact policy) = .agree ∨
        node.comparePath load key depth (.exact policy) = .skipped) ↔
      seenOf load node depth policy <+: key.drop depth := by
  cases policy <;> exact PathOrder.agree_or_skipped_iff

theorem seek_exact_of_not_isPrefix {key : Key}
    (h : ¬ seenOf load node depth policy <+: key.drop depth) :
    seek load (inner node) key depth skipped (.exact policy) = none := by
  rw [← comparePath_exact, not_or] at h
  cases ho : node.comparePath load key depth (.exact policy) with
  | agree => exact absurd ho h.1
  | skipped => exact absurd ho h.2
  | below => exact seek_of_below ho
  | above => exact seek_of_above (.inl ho)
  | keyEnds => exact seek_of_above (.inr ho)

/-- A path that is stored in full is seen as it is stored. -/
theorem seenOf_eq_inline (h : policy = .optimistic ∨ node.path.isTruncated = false) :
    seenOf load node depth policy = node.path.inline := by
  cases policy with
  | optimistic => rfl
  | pessimistic =>
    have ht := h.resolve_left (by simp)
    rw [seenOf, Node.fullPath, ht, if_neg Bool.false_ne_true]

/-- Where the search for a key that belongs under a branch goes on, it goes on under that branch. -/
theorem seek_branch {key : Key} (skipped : Bool)
    (hpath : seenOf load node depth policy <+: key.drop depth)
    (hbyte : key[depth + node.path.length]? = some byte) (hc : node.find? byte = some child) :
    ∃ skipped', seek load (inner node) key depth skipped (.exact policy) =
      seek load child key (depth + node.path.length + 1) skipped' (.exact policy) := by
  refine ⟨skipped || node.comparePath load key depth (.exact policy) == .skipped, ?_⟩
  rw [seek_of_byte (comparePath_exact.2 hpath) hbyte, hc, Option.bind_some, beside, Option.or_none]

/-- In a tree without issues a search for the key of a leaf arrives at the leaf, unless a pessimistic
search leaves at a path that is not stored in full. -/
theorem Within.seek_cases (policy : Policy) (skipped : Bool) (hw : root.Within tree depth)
    (ht : tree.Every (·.layout.Valid)) (h : tree.issuesAt load depth places = [])
    (hv : v ∈ tree.toList) :
    tree.seek load (load v) depth skipped (.exact policy) = some v ∨
      policy = .pessimistic ∧ tree.seek load (load v) depth skipped (.exact policy) = none ∧
        ∃ node below, root.Within (inner node) below ∧ v ∈ (inner node).toList ∧
          node.path.isTruncated ∧ ¬ node.fullPath load below <+: (load v).drop below := by
  induction ht generalizing depth places skipped with
  | leaf value =>
    rw [toList_leaf, List.mem_singleton] at hv
    subst hv
    rw [Tree.seek]
    exact .inl (checkLeaf_of_eq depth rfl)
  | @inner node valid below ih =>
    obtain ⟨byte, child, hc, hvc⟩ := (mem_toList_inner valid).1 hv
    obtain ⟨hinline, hbyte⟩ := branch_of_issuesAt_eq_nil (.inner valid below) h hc hvc
    by_cases hpath : seenOf load node depth policy <+: (load v).drop depth
    · obtain ⟨skipped', hseek⟩ := seek_branch skipped hpath hbyte hc
      rw [hseek]
      exact ih byte child hc skipped' (hw.child hc) (issuesAt_child valid h hc) hvc
    · have hunseen : ¬ (policy = .optimistic ∨ node.path.isTruncated = false) := by
        intro hstored
        rw [seenOf_eq_inline hstored] at hpath
        exact hpath hinline
      obtain ⟨hpolicy, htruncated⟩ := not_or.1 hunseen
      cases policy with
      | optimistic => exact absurd rfl hpolicy
      | pessimistic =>
        exact .inr ⟨rfl, seek_exact_of_not_isPrefix hpath, node, depth, hw, hv,
          Bool.eq_true_of_not_eq_false htruncated, hpath⟩

theorem Within.exists_places (hw : root.Within tree depth) (hroot : root.Every (·.layout.Valid))
    (hclean : root.issuesAt load 0 [] = []) :
    ∃ places, tree.issuesAt load depth places = [] := by
  induction hw with
  | root => exact ⟨[], hclean⟩
  | child hw hc ih =>
    obtain ⟨places, h⟩ := ih
    cases hw.every hroot with
    | inner valid _ => exact ⟨_, issuesAt_child valid h hc⟩

/-- A search that finds a leaf of a tree without issues comes through every tree that the leaf is in. -/
theorem Within.seek_eq_some (hw : root.Within tree depth) (hroot : root.Every (·.layout.Valid))
    (hclean : root.issuesAt load 0 [] = []) (hv : v ∈ tree.toList)
    (hseek : root.seek load (load v) 0 false (.exact policy) = some v) :
    ∃ skipped, tree.seek load (load v) depth skipped (.exact policy) = some v := by
  induction hw with
  | root => exact ⟨false, hseek⟩
  | @child node byte child depth hw hc ih =>
    have hevery := hw.every hroot
    obtain ⟨places, h⟩ := hw.exists_places hroot hclean
    obtain ⟨-, hbyte⟩ := branch_of_issuesAt_eq_nil hevery h hc hv
    cases hevery with
    | inner valid _ =>
      obtain ⟨skipped, hs⟩ := ih ((mem_toList_inner valid).2 ⟨byte, child, hc, hv⟩)
      have hpath := comparePath_exact.1 (agree_or_skipped_of_seek hs)
      obtain ⟨skipped', hstep⟩ := seek_branch skipped hpath hbyte hc
      exact ⟨skipped', hstep.symm.trans hs⟩

end Tree

namespace Index

/-- The paths above a leaf that are not stored in full are the same in the leaf's key as in the key of
the smallest leaf below, where they are read. -/
def PathsAgree (load : Loader) (index : Index) (v : UInt64) : Prop :=
  ∀ root node depth, index.root = some root → root.Within (.inner node) depth →
    v ∈ (Tree.inner node).toList → node.path.isTruncated →
      node.fullPath load depth <+: (load v).drop depth

/-- After any run: where the check finds nothing under a loader, an optimistic search finds each leaf by
its key, and a pessimistic one those whose keys agree with the paths above them and no others. -/
theorem run_clean (policy : Policy) (calls : List IndexCall) (load : Loader)
    (hclean : ((empty policy).run calls).issues load = []) :
    let index := (empty policy).run calls
    ∀ v ∈ index.leaves, load v ≠ [] →
      index.lookupWith load (load v) .optimistic = some v ∧
      (index.PathsAgree load v → index.lookupWith load (load v) .pessimistic = some v) ∧
      (¬ index.PathsAgree load v → index.lookupWith load (load v) .pessimistic = none) := by
  intro index v hv hne
  have hsound : index.Sound := (sound_empty policy).run calls
  cases hr : index.root with
  | none =>
    rw [leaves_none hr] at hv
    cases hv
  | some root =>
    rw [leaves_some hr] at hv
    have hroot : root.Every (·.layout.Valid) := (hsound.valid root hr).imp fun _ hv => hv.layout
    have hissues : root.issuesAt load 0 [] = [] := by
      rw [issues, List.append_assoc, List.append_eq_nil_iff, hr] at hclean
      exact hclean.1
    have hlookup (search : Policy) : index.lookupWith load (load v) search =
        root.seek load (load v) 0 false (.exact search) := by
      rw [lookupWith, seek, hr, Option.bind_some, List.isEmpty_eq_false_iff.2 hne,
        if_neg Bool.false_ne_true]
    have hcases (search : Policy) :=
      Tree.Within.seek_cases search false .root hroot hissues hv
    refine ⟨?_, fun hagree => ?_, fun hdiffer => ?_⟩
    · rw [hlookup]
      exact (hcases .optimistic).resolve_right (by simp)
    · rw [hlookup]
      refine (hcases .pessimistic).resolve_right ?_
      rintro ⟨-, -, node, depth, hw, hmem, ht, hpath⟩
      exact hpath (hagree root node depth hr hw hmem ht)
    · rw [hlookup]
      rcases hcases .pessimistic with hfound | ⟨-, hnone, -⟩
      · refine absurd ?_ hdiffer
        intro root' node depth hr' hw hmem _
        obtain rfl := Option.some.inj (hr.symm.trans hr')
        obtain ⟨skipped, hs⟩ := hw.seek_eq_some hroot hissues hmem hfound
        exact Tree.comparePath_exact.1 (Tree.agree_or_skipped_of_seek hs)
      · exact hnone

/-- The keys of two twins, of which the second has come to differ in the bytes that no path stores. -/
def driftedKey : Loader := fun value =>
  if value = 2 then List.replicate 9 97 ++ List.replicate 3 98 ++ [2] else twinKey value

/-- The check finds nothing against the twins, whether or not the second of them has drifted. -/
theorem twins_clean :
    let index := (empty .optimistic).run
      [.insert twinKey (twinKey 1) 1, .insert twinKey (twinKey 2) 2]
    (index.issues twinKey = [] ∧ index.PathsAgree twinKey 2) ∧
      index.issues driftedKey = [] ∧ ¬ index.PathsAgree driftedKey 2 := by
  intro index
  have hclean : index.issues twinKey = [] := by decide +kernel
  have hdrifted : index.issues driftedKey = [] := by decide +kernel
  have hleaf : 2 ∈ index.leaves := by decide +kernel
  obtain ⟨-, -, hunfound⟩ := run_clean .optimistic
    [.insert twinKey (twinKey 1) 1, .insert twinKey (twinKey 2) 2] twinKey hclean 2 hleaf (by decide)
  obtain ⟨-, hfound, -⟩ := run_clean .optimistic
    [.insert twinKey (twinKey 1) 1, .insert twinKey (twinKey 2) 2] driftedKey hdrifted 2 hleaf
    (by decide)
  refine ⟨⟨hclean, ?_⟩, hdrifted, fun hagree => ?_⟩
  · by_contra hdiffer
    exact absurd (hunfound hdiffer) (by decide +kernel)
  · exact absurd (hfound hagree) (by decide +kernel)

/-- A clean report does not mean that each key is found: the second twin, drifted in the bytes of the
path that are not stored, is found by the optimistic search only. -/
theorem clean_unfound :
    let index := (empty .optimistic).run
      [.insert twinKey (twinKey 1) 1, .insert twinKey (twinKey 2) 2]
    index.issues driftedKey = [] ∧ 2 ∈ index.leaves ∧ driftedKey 2 ≠ [] ∧
      index.lookupWith driftedKey (driftedKey 2) .optimistic = some 2 ∧
      index.lookupWith driftedKey (driftedKey 2) .pessimistic = none := by
  decide +kernel

end Index

end AdaptiveRadix
