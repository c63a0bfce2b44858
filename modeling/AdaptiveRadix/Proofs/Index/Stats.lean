/-
The statistics of an index after any run. They count the keys that are in the index, and all
else they tell is bounded by these: the inner nodes by their number, the height by their
length. The descents nest no more calls in one another than the index is high, and one more.
-/
import AdaptiveRadix.Proofs.Index.Reaches
import AdaptiveRadix.Proofs.Key.Encode
import AdaptiveRadix.Proofs.Tree.Depth

namespace AdaptiveRadix

variable {index : Index} {contents : Contents} {load : Loader} {bound : Nat}

namespace Index

/-- Fewer inner nodes than keys are in an index that has keys. -/
theorem Holds.nodes_lt_length (h : index.Holds load contents) (hne : index.isEmpty = false) :
    index.stats.nodes < index.length := by
  obtain ⟨root, hr⟩ : ∃ root, index.root = some root :=
    Option.isSome_iff_exists.1 (Option.isNone_eq_false_iff.1 hne)
  rw [h.length, ← index.leaves_stats, stats_some hr]
  exact (h.fits root hr).every.nodes_lt_leaves

theorem Holds.height_le (h : index.Holds load contents)
    (hkeys : ∀ key, contents key ≠ none → key.length ≤ bound) : index.stats.height ≤ bound := by
  cases hr : index.root with
  | none =>
    rw [stats_none hr]
    exact Nat.zero_le bound
  | some root =>
    have hroot := (h.fits root hr).length_add_height_le fun v hv => hkeys (load v) <| by
      rw [h.of_mem (leaves_some hr ▸ hv)]
      exact Option.some_ne_none v
    rwa [stats_some hr, ← Nat.zero_add root.stats.height]

theorem height_le_nodes (index : Index) : index.stats.height ≤ index.stats.nodes := by
  cases hr : index.root with
  | none => rw [stats_none hr]; decide
  | some root => rw [stats_some hr]; exact root.height_le_nodes

end Index

/-- After any run the statistics count the keys, of which there is one more at least than inner nodes;
and the height is bounded by the inner nodes, by the length of the longest key and so by that of any
key, and by eight where all keys are integers. With one call more than the index is high every
change and every search comes to its answer. -/
theorem Reaches.stats_bounded (h : Reaches index contents) :
    (index.stats.leaves = index.length ∧ index.payloads.length = index.length) ∧
    (index.isEmpty = false → index.stats.nodes + 1 ≤ index.length) ∧
    index.stats.height ≤ index.stats.nodes ∧
    (∀ bound, (∀ key, contents key ≠ none → key.length ≤ bound) → index.stats.height ≤ bound) ∧
    index.stats.height ≤ 4096 ∧
    ((∀ key, contents key ≠ none → ∃ n, key = Key.ofUInt64 n) → index.stats.height ≤ 8) ∧
    ∀ root, index.root = some root →
      ∀ calls, index.stats.height < calls → root.EnoughCalls calls := by
  obtain ⟨load, hload⟩ := h.exists_resolve
  have hholds := h.holds hload
  refine ⟨⟨index.leaves_stats.trans hholds.length.symm, ?_⟩, hholds.nodes_lt_length,
    index.height_le_nodes, fun bound => hholds.height_le, ?_, fun hkeys => ?_,
    fun root hr calls hcalls => ?_⟩
  · rw [hholds.payloads_eq, hholds.length]
  · refine hholds.height_le fun key hc => ?_
    obtain ⟨v, hv⟩ := Option.ne_none_iff_exists'.1 hc
    exact (Key.check_eq_ok_iff.1 (hholds.checked hv)).2
  · refine hholds.height_le fun key hc => ?_
    obtain ⟨n, rfl⟩ := hkeys key hc
    exact (Key.length_ofUInt64 n).le
  · exact (hholds.fits root hr).laid.enoughCalls (Index.stats_some hr ▸ hcalls)

theorem twins_stats_bounded :
    twins.stats = { Stats.zero with four := 1, leaves := 2, height := 1 } ∧
      twins.isEmpty = false ∧ twins.stats.nodes + 1 ≤ twins.length ∧
      (∀ key, twinContents key ≠ none → key.length ≤ 13) ∧ twins.stats.height ≤ 13 ∧
      ∀ root, twins.root = some root → root.EnoughCalls 2 := by
  obtain ⟨-, hnodes, -, hbound, -, -, hcalls⟩ := Reaches.stats_bounded reaches_twins
  have hstats : twins.stats = { Stats.zero with four := 1, leaves := 2, height := 1 } := by cbv
  have hne : twins.isEmpty = false := by cbv
  have hkeys : ∀ key, twinContents key ≠ none → key.length ≤ 13 := by
    intro key hc
    rcases eq_twinKey hc with rfl | rfl <;> decide
  exact ⟨hstats, hne, hnodes hne, hkeys, hbound 13 hkeys,
    fun root hr => hcalls root hr 2 (by rw [hstats]; decide)⟩

end AdaptiveRadix
