/-
The shape of an index is a matter of its contents. Whatever run has led to them, the nodes are nested
in the same way, with the same paths and branch bytes over the same payloads. What a run
can leave behind is the kinds of the nodes: a node that has lost children may still be of a
larger kind than it needs. Without a loss the kinds, too, are decided, and with them the text.
-/
import AdaptiveRadix.Proofs.Index.Growth
import AdaptiveRadix.Proofs.Tree.Shape

namespace AdaptiveRadix

variable {index other : Index} {contents : Contents} {load : Loader}

/-- Two indexes with the same contents list the same payloads. -/
theorem Index.Holds.leaves_eq (h : index.Holds load contents) (h' : other.Holds load contents) :
    index.leaves = other.leaves := by
  refine Probe.eq_of_pairwise (fun _ _ => List.lt_asymm) h.ascending h'.ascending fun v => ?_
  constructor
  · exact fun hv => ((h'.find _ v).1 (h.of_mem hv)).1
  · exact fun hv => ((h.find _ v).1 (h'.of_mem hv)).1

theorem Index.Holds.length_eq (h : index.Holds load contents) (h' : other.Holds load contents) :
    index.length = other.length := by
  rw [h.length, h'.length, h.leaves_eq h']

/-- Two indexes with the same contents come to the same whenever what a node contributes hangs on
its path, its number of children, and what they come to. -/
theorem Index.Holds.fold_congr {β : Type} {onLeaf : UInt64 → β}
    {onInner : Node Tree → List (UInt8 × β) → β} {p : Node Tree → Prop}
    (h : index.Holds load contents) (h' : other.Holds load contents)
    (hp : ∀ root, index.root = some root → root.Every p)
    (hp' : ∀ root, other.root = some root → root.Every p)
    (hinner : ∀ node node' below, p node → p node' → node.path = node'.path →
      node.count = node'.count → onInner node below = onInner node' below) :
    index.root.map (·.fold onLeaf onInner) = other.root.map (·.fold onLeaf onInner) := by
  have hempty : index.isEmpty ↔ other.isEmpty := h.isEmpty_iff.trans h'.isEmpty_iff.symm
  have hleaves := h.leaves_eq h'
  cases hr : index.root with
  | none =>
    cases hr' : other.root with
    | none => rfl
    | some root' => simp [isEmpty, hr, hr'] at hempty
  | some root =>
    cases hr' : other.root with
    | none => simp [isEmpty, hr, hr'] at hempty
    | some root' =>
      rw [leaves_some hr, leaves_some hr'] at hleaves
      exact congrArg some ((h.fits root hr).fold_congr (h'.fits root' hr') (hp root hr)
        (hp' root' hr') (fun v => by rw [hleaves]) hinner)

/-- Two runs to the same contents have a loader in common. -/
theorem Reaches.exists_holds (h : Reaches index contents) (h' : Reaches other contents) :
    ∃ load, index.Holds load contents ∧ other.Holds load contents := by
  obtain ⟨load, resolve⟩ := h.exists_resolve
  exact ⟨load, h.holds resolve, h'.holds resolve⟩

theorem Reaches.shape_eq (h : Reaches index contents) (h' : Reaches other contents) :
    index.root.map Tree.shape = other.root.map Tree.shape := by
  obtain ⟨load, hholds, hholds'⟩ := h.exists_holds h'
  refine hholds.fold_congr hholds' (fun root hr => (hholds.fits root hr).every)
    (fun root hr => (hholds'.fits root hr).every) fun node node' below _ _ hpath _ => ?_
  rw [hpath]

/-- Snug nodes with as many children are of the same kind. -/
theorem Node.Snug.kind_eq {α : Type} {node node' : Node α} (h : node.Snug) (h' : node'.Snug)
    (hcount : node.count = node'.count) : node.kind = node'.kind := by
  rw [h.count.2, h'.count.2, hcount]

theorem Gathers.sketch_eq (h : Gathers index contents) (h' : Gathers other contents) :
    index.root.map (Tree.sketch fun node => (node.kind, node.path)) =
      other.root.map (Tree.sketch fun node => (node.kind, node.path)) := by
  obtain ⟨load, hholds, hholds'⟩ := h.reaches.exists_holds h'.reaches
  refine hholds.fold_congr hholds' h.snug h'.snug fun node node' below hs hs' hpath hcount => ?_
  exact congrArg (Sketch.inner · below) (Prod.ext (hs.kind_eq hs' hcount) hpath)

theorem Gathers.dump_eq (h : Gathers index contents) (h' : Gathers other contents) :
    index.dump = other.dump := by
  obtain ⟨load, hholds, hholds'⟩ := h.reaches.exists_holds h'.reaches
  have hdump : index.root.map Tree.dump = other.root.map Tree.dump := by
    refine hholds.fold_congr hholds' h.snug h'.snug fun node node' below hs hs' hpath hcount => ?_
    funext indent
    rw [Tree.dumpInner, Tree.dumpInner, hpath, hcount, hs.kind_eq hs' hcount]
  have hlines := congrArg (Option.elim · "(empty)\n" (· 0)) hdump
  rwa [Option.elim_map, Option.elim_map] at hlines

/-- The order in which payloads with prefix-free keys come in does not show in the text. -/
theorem PrefixFree.dump_gather_eq {values values' : List UInt64} (hfree : PrefixFree load values)
    (hperm : values.Perm values') (policy policy' : Policy) :
    (Index.gather load policy values).dump = (Index.gather load policy' values').dump := by
  have hfree' : PrefixFree load values' := by
    refine (hperm.pairwise_iff ?_).1 hfree
    exact fun h => h.symm
  obtain ⟨contents, hgathers, hcollects⟩ := gathers_gather policy hfree
  obtain ⟨contents', hgathers', hcollects'⟩ := gathers_gather policy' hfree'
  have hcontents : contents = contents' := by
    funext key
    refine Option.ext fun v => ?_
    rw [hcollects, hcollects', hperm.mem_iff]
  exact hgathers.dump_eq (hcontents ▸ hgathers')

/-- The contents decide the shape; they decide the kinds of the nodes, too, and the text, where
nothing has been lost; and so the order in which prefix-free keys come in does not show. -/
theorem shape_of_contents :
    (∀ {index other contents}, Reaches index contents → Reaches other contents →
      index.root.map Tree.shape = other.root.map Tree.shape) ∧
    (∀ {index other contents}, Gathers index contents → Gathers other contents →
      (index.root.map (Tree.sketch fun node => (node.kind, node.path)) =
        other.root.map (Tree.sketch fun node => (node.kind, node.path))) ∧
      (∀ root, index.root = some root →
        root.Every fun node => 2 ≤ node.count ∧ node.kind = .suiting node.count) ∧
      index.dump = other.dump) ∧
    ∀ {load values values'}, PrefixFree load values → values.Perm values' →
      ∀ policy policy', (Index.gather load policy values).dump =
        (Index.gather load policy' values').dump :=
  ⟨Reaches.shape_eq,
    fun h h' => ⟨h.sketch_eq h', fun root hr => (h.snug root hr).imp fun _ hs => hs.count,
      h.dump_eq h'⟩,
    PrefixFree.dump_gather_eq⟩

/-! ## Three runs to the twins -/

theorem prefixFree_twins : PrefixFree twinKey [1, 2] := by
  unfold PrefixFree
  decide

theorem gathers_twins : Gathers twins twinContents :=
  .accept (.accept (.empty .pessimistic) (.empty twinKey) rfl answer_oneTwin)
    (Contents.Resolve.insert (.empty twinKey) rfl) rfl answer_twins

theorem answer_secondTwin :
    ((Index.empty .pessimistic).insert twinKey (twinKey 2) 2).answer = .ok none := by
  cbv

theorem answer_swapped :
    ((Index.gather twinKey .pessimistic [2]).insert twinKey (twinKey 1) 1).answer = .ok none := by
  cbv

/-- The twins the other way round. -/
def swapped : Index :=
  .gather twinKey .pessimistic [2, 1]

theorem gathers_swapped : Gathers swapped twinContents := by
  have hne : twinKey 1 ≠ twinKey 2 := by decide
  rw [twinContents, Function.update_comm hne]
  exact .accept (.accept (.empty .pessimistic) (.empty twinKey) rfl answer_secondTwin)
    (Contents.Resolve.insert (.empty twinKey) rfl) rfl answer_swapped

/-- The twins after a third of the kind has come and gone. -/
def reunited : Index :=
  ((twins.insert twinKey (twinKey 3) 3).state.erase twinKey (twinKey 3)).state

theorem answer_thirdTwin : (twins.insert twinKey (twinKey 3) 3).answer = .ok none := by
  cbv

theorem reaches_reunited : Reaches reunited twinContents := by
  have hthird : twinContents (twinKey 3) = none := by decide
  have h := Reaches.erase (twinKey 3) (.accept reaches_twins resolve_twins rfl answer_thirdTwin)
    (resolve_twins.insert rfl)
  rwa [Function.update_idem, ← hthird, Function.update_eq_self] at h

theorem shape_twins :
    twins.root.map Tree.shape =
      some (.inner (.ofBytes (List.replicate 12 97)) [(1, .leaf 1), (2, .leaf 2)]) := by
  cbv

theorem sketch_twins :
    twins.root.map (Tree.sketch fun node => (node.kind, node.path)) =
      some (.inner (.four, .ofBytes (List.replicate 12 97)) [(1, .leaf 1), (2, .leaf 2)]) := by
  cbv

/-- Twelve bytes that both keys share, and a node of the smallest kind. -/
theorem twins_shape :
    (reunited.root.map Tree.shape = twins.root.map Tree.shape ∧
      reunited.root.map Tree.shape =
        some (.inner (.ofBytes (List.replicate 12 97)) [(1, .leaf 1), (2, .leaf 2)])) ∧
    (swapped.dump = twins.dump ∧
      swapped.root.map (Tree.sketch fun node => (node.kind, node.path)) =
        some (.inner (.four, .ofBytes (List.replicate 12 97)) [(1, .leaf 1), (2, .leaf 2)])) ∧
    (Index.gather twinKey .optimistic [2, 1]).dump =
      (Index.gather twinKey .optimistic [1, 2]).dump := by
  obtain ⟨hshape, hdump, hgather⟩ := shape_of_contents
  have hreunited := hshape reaches_reunited reaches_twins
  obtain ⟨hkinds, -, htext⟩ := hdump gathers_swapped gathers_twins
  exact ⟨⟨hreunited, hreunited.trans shape_twins⟩, ⟨htext, hkinds.trans sketch_twins⟩,
    (hgather prefixFree_twins (.swap 2 1 []) .optimistic .optimistic).symm⟩

end AdaptiveRadix
