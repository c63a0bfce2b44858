/-
Paths of an index against search keys. For every node of the index and every key that has come to
it, what the comparison of the node's path answers is true of all the keys below the node.
-/
import AdaptiveRadix.Proofs.Index.Paths
import AdaptiveRadix.Proofs.Tree.PathOrder
import AdaptiveRadix.Proofs.Tree.Shape

namespace AdaptiveRadix

variable {index : Index} {contents : Contents} {load : Loader} {root : Tree} {node : Node Tree}
  {depth : Nat} {key : Key}

/-- After any run, a node's path is read whole, whichever leaf below is asked: it is all that the keys
below share from there on. The order in which it stands to a key that agrees with them on all
bytes above the node is the order of those keys. Only an optimistic search skips, and only bytes
that are not stored. -/
theorem Reaches.path_order (h : Reaches index contents) (resolve : contents.Resolve load)
    (hroot : index.root = some root) (hwithin : root.Within (.inner node) depth)
    (hkey : ∀ v ∈ (Tree.inner node).toList, (load v).take depth = key.take depth) :
    (Tree.inner node).toList ≠ [] ∧
    (∀ v ∈ (Tree.inner node).toList, depth + node.path.length < (load v).length ∧
      node.fullPath load depth = ((load v).drop depth).take node.path.length) ∧
    (∀ shared, (∀ v ∈ (Tree.inner node).toList, shared <+: (load v).drop depth) →
      shared.length ≤ node.path.length) ∧
    ∀ aim, (node.comparePath load key depth aim).Tells load node depth key ∧
      (aim ≠ .exact .optimistic → node.comparePath load key depth aim ≠ .skipped) := by
  obtain ⟨above, rfl, hfits⟩ := hwithin.exists_fits ((h.holds resolve).fits root hroot)
  obtain ⟨path, hspans⟩ := hfits.spans
  have htruth := hspans.tellsTruth
  have habove : above <+: key := by
    obtain ⟨v, hv⟩ := hfits.exists_mem
    rw [List.prefix_iff_eq_take.1 (hfits.starts hv), hkey v hv]
    exact List.take_prefix ..
  refine ⟨hfits.inhabited.toList_ne_nil, fun v hv => ⟨?_, ?_⟩, fun shared hshared => ?_, fun aim =>
    ⟨hspans.comparePath_tells habove aim, hspans.comparePath_ne_skipped⟩⟩
  · rw [hspans.length_path]
    exact htruth.longer v hv
  · rw [hspans.fullPath_eq, hspans.length_path, htruth.shared v hv]
  · rw [hspans.length_path]
    refine hspans.length_le fun v hv => ?_
    obtain ⟨rest, hrest⟩ := hfits.starts hv
    have hall := hshared v hv
    rw [← hrest, List.drop_left] at hall
    rw [← hrest]
    exact (List.prefix_append_right_inj above).2 hall

/-- A key that leaves the path of the two keys at its last byte, which is not stored. -/
theorem twins_path_order :
    ∃ node, twins.root = some (.inner node) ∧
      node.comparePath twinKey (List.replicate 11 97 ++ [98]) 0 .floor = .below ∧
      (∀ v ∈ (Tree.inner node).toList, twinKey v < List.replicate 11 97 ++ [98]) ∧
      node.comparePath twinKey (List.replicate 11 97 ++ [98]) 0 (.exact .optimistic) = .skipped ∧
      node.path.isTruncated := by
  obtain ⟨node, hroot⟩ := exists_root_twins
  have horder : ∀ aim, node.comparePath twinKey (List.replicate 11 97 ++ [98]) 0 aim =
      twins.root.elim .agree fun root => root.fold (fun _ => .agree) fun node _ =>
        node.comparePath twinKey (List.replicate 11 97 ++ [98]) 0 aim := by
    intro aim
    rw [hroot, Option.elim_some, Tree.fold_inner]
  have hbelow : node.comparePath twinKey (List.replicate 11 97 ++ [98]) 0 .floor = .below := by
    rw [horder]
    cbv
  have hskipped :
      node.comparePath twinKey (List.replicate 11 97 ++ [98]) 0 (.exact .optimistic) = .skipped := by
    rw [horder]
    cbv
  have hagree : ∀ v ∈ (Tree.inner node).toList,
      (twinKey v).take 0 = (List.replicate 11 97 ++ [98] : Key).take 0 := fun _ _ => by
    rw [List.take_zero, List.take_zero]
  obtain ⟨-, -, -, htells⟩ := Reaches.path_order reaches_twins resolve_twins hroot .root hagree
  have hless := (htells .floor).1
  have hstored := (htells (.exact .optimistic)).1
  rw [hbelow] at hless
  rw [hskipped] at hstored
  exact ⟨node, hroot, hbelow, hless, hskipped, hstored.1⟩

end AdaptiveRadix
