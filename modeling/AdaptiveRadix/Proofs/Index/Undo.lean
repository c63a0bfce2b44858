/-
Erasing a key right after it has come into an index. The index is as long as before and of the same
shape, since it has the same contents again. The nodes are of the kinds they were, too, but
for one that the insertion may have had to grow; this is not a matter of the contents, and is
read off the nodes on the way.
-/
import AdaptiveRadix.Proofs.Index.Shape
import AdaptiveRadix.Proofs.Tree.Undo

namespace AdaptiveRadix

variable {index : Index} {contents : Contents} {load : Loader} {key : Key} {value : UInt64}
  {old : Option UInt64} {root : Tree} {node : Node Tree}

namespace Index

/-- The kind of the node that branch bytes lead to. -/
def kindAt? (index : Index) (address : List UInt8) : Option Kind :=
  index.root.bind (·.kindAt? address)

theorem kindAt?_none (h : index.root = none) : index.kindAt? = fun _ => none := by
  funext address
  rw [kindAt?, h, Option.bind_none]

theorem kindAt?_some (h : index.root = some root) : index.kindAt? = root.kindAt? := by
  funext address
  rw [kindAt?, h, Option.bind_some]

/-- A key that is fit to be indexed goes into the tree, if there is one. -/
theorem insert_into (hcheck : Key.check key = .ok ()) (hr : index.root = some root) :
    (index.insert load key value).state.root = some (root.insertAt load key 0 value).state ∧
      (index.insert load key value).events = (root.insertAt load key 0 value).events := by
  unfold Index.insert
  rw [hcheck, hr]
  exact ⟨rfl, rfl⟩

/-- A key goes out of a tree that is more than a leaf. -/
theorem erase_out_of (hne : key ≠ []) (hr : index.root = some (.inner node)) :
    (index.erase load key).state.root = some ((Tree.inner node).eraseAt load key 0).state := by
  unfold Index.erase
  rw [if_neg (by simpa using hne), hr]
  rfl

/-- The only key of an index goes out together with the tree. -/
theorem erase_only (hne : key ≠ []) (hr : index.root = some (.leaf value)) (hkey : load value = key) :
    (index.erase load key).state.root = none := by
  unfold Index.erase
  rw [if_neg (by simpa using hne), hr]
  simp only [hkey, if_true]

theorem Holds.restores (h : index.Holds load contents) (hkey : load value = key)
    (hcheck : Key.check key = .ok ()) (hfree : ¬ contents.Clash key) (hnew : contents key = none) :
    Tree.Restores index.kindAt? (index.insert load key value).state.kindAt?
      ((index.insert load key value).state.erase load key).state.kindAt?
      (index.insert load key value).events := by
  have hne : key ≠ [] := (Key.check_eq_ok_iff.1 hcheck).1
  subst hkey
  cases hr : index.root with
  | none =>
    have hdone : index.insert load (load value) value =
        ⟨{ index with root := some (.leaf value), length := index.length + 1 }, .ok none, []⟩ := by
      unfold Index.insert
      rw [hcheck, hr]
    rw [hdone]
    refine .all (fun _ _ _ => List.not_mem_nil) ?_
    rw [kindAt?_none hr, kindAt?_none (erase_only hne rfl rfl)]
  | some root =>
    have hattempt : Tree.Attempt load (load value) value [] root _ :=
      (h.fits root hr).attempt List.nil_prefix
    have hfree : ¬ Tree.Clashes load root (load value) := by rwa [h.clashes_iff hr]
    have hfresh : ∀ v ∈ root.toList, load v ≠ load value := leaves_some hr ▸ h.eq_none_iff.1 hnew
    obtain ⟨node, hdone, hrestores⟩ := hattempt.restores hcheck hfree hfresh
    obtain ⟨hroot, hevents⟩ := insert_into hcheck hr
    have hroot := hroot.trans (congrArg some hdone)
    rw [kindAt?_some hr, kindAt?_some hroot, kindAt?_some (erase_out_of hne hroot), hevents]
    exact hrestores

end Index

/-- Erasing a key that has just come in answers its payload. The index is as long as before, and its
nodes are nested in the same way, with the same paths and branch bytes over the same
payloads; and they are of the same kinds, but for one that the insertion had to grow. -/
theorem Reaches.erase_inserted (h : Reaches index contents) (resolve : contents.Resolve load)
    (hkey : load value = key) (hnew : contents key = none)
    (haccept : (index.insert load key value).answer = .ok old) :
    ((index.insert load key value).state.erase load key).answer = some value ∧
      ((index.insert load key value).state.erase load key).state.length = index.length ∧
      ((index.insert load key value).state.erase load key).state.root.map Tree.shape =
        index.root.map Tree.shape ∧
      Tree.Restores index.kindAt? (index.insert load key value).state.kindAt?
        ((index.insert load key value).state.erase load key).state.kindAt?
        (index.insert load key value).events := by
  have hinserted := Reaches.accept h resolve hkey haccept
  have hresolve := resolve.insert hkey
  have herased := Reaches.erase key hinserted hresolve
  rw [Function.update_idem, ← hnew, Function.update_eq_self] at herased
  refine ⟨?_, (herased.holds resolve).length_eq (h.holds resolve), herased.shape_eq h, ?_⟩
  · rw [((hinserted.holds hresolve).erase key).1, Function.update_self]
  · rcases (h.holds resolve).insert_cases hkey with
      ⟨_, -, hdone⟩ | ⟨-, -, hdone⟩ | ⟨hcheck, hfree, -, -⟩
    · rw [hdone] at haccept
      cases haccept
    · rw [hdone] at haccept
      cases haccept
    · exact (h.holds resolve).restores hkey hcheck hfree hnew

/-! ## A node without room -/

/-- Keys of one byte. -/
def byteKey : Loader := fun value => [value.toUInt8]

/-- Four keys fill the node at the top. -/
def crowded : Index :=
  .gather byteKey .pessimistic [1, 2, 3, 4]

theorem exists_gathers_crowded :
    ∃ contents, Gathers crowded contents ∧ contents.Collects byteKey [1, 2, 3, 4] :=
  gathers_gather .pessimistic (by unfold PrefixFree; decide)

theorem events_thirdTwin : (twins.insert twinKey (twinKey 3) 3).events = [] := by
  cbv

theorem answer_fifth : (crowded.insert byteKey (byteKey 5) 5).answer = .ok none := by
  cbv

theorem events_fifth :
    (crowded.insert byteKey (byteKey 5) 5).events = [.grew .four .sixteen 4] := by
  cbv

/-- Where a third twin has come and gone all nodes are of the kinds they were. Where a fifth key has
come to four and gone, the node that had no room for it stays of the larger kind. -/
theorem third_and_fifth_erased :
    reunited.kindAt? = twins.kindAt? ∧
      ((crowded.insert byteKey (byteKey 5) 5).state.erase byteKey (byteKey 5)).answer = some 5 ∧
      ∃ address, crowded.kindAt? address = some .four ∧
        ((crowded.insert byteKey (byteKey 5) 5).state.erase byteKey (byteKey 5)).state.kindAt? =
          Function.update crowded.kindAt? address (some .sixteen) := by
  constructor
  · have hthird : twinContents (twinKey 3) = none := by decide
    obtain ⟨-, -, -, hkinds⟩ :=
      Reaches.erase_inserted reaches_twins resolve_twins rfl hthird answer_thirdTwin
    exact hkinds.of_quiet (by simp [events_thirdTwin])
  · obtain ⟨contents, hgathers, hcollects⟩ := exists_gathers_crowded
    have hfifth : contents (byteKey 5) = none := by
      refine Option.eq_none_iff_forall_ne_some.2 fun v hc => ?_
      obtain ⟨⟨hv, hkey⟩, -⟩ := (hcollects _ v).1 hc
      have hfresh : ∀ v ∈ ([1, 2, 3, 4] : List UInt64), byteKey v ≠ byteKey 5 := by
        simp [byteKey]
      exact hfresh v hv hkey
    obtain ⟨hanswer, -, -, hkinds⟩ :=
      Reaches.erase_inserted hgathers.reaches hcollects.resolve rfl hfifth answer_fifth
    rw [events_fifth] at hkinds
    obtain ⟨address, was, grew, kept⟩ := hkinds.of_grew
    exact ⟨hanswer, address, was, kept.trans grew⟩

end AdaptiveRadix
