/-
Searches. A search for a key of the tree arrives at its leaf under either policy, and any leaf it
arrives at begins with the key. The searches for a nearest key find what a search of all
payloads in their order would find first.
-/
import AdaptiveRadix.Proofs.Tree.PathOrder

namespace AdaptiveRadix

namespace Tree

variable {load : Loader} {above path key : Key} {tree : Tree} {node : Node Tree}
  {byte : UInt8} {child : Tree} {v w : UInt64} {policy : Policy} {skipped : Bool} {aim : Aim}

/-! ## One step of a search -/

variable {depth : Nat}

theorem seek_of_below (ho : node.comparePath load key depth aim = .below) :
    seek load (inner node) key depth skipped aim = (inner node).allLess aim := by
  rw [seek, ho]

theorem seek_of_above (ho : node.comparePath load key depth aim = .above ∨
      node.comparePath load key depth aim = .keyEnds) :
    seek load (inner node) key depth skipped aim = (inner node).allGreater aim := by
  rcases ho with ho | ho <;> rw [seek, ho]

theorem seek_of_end (ho : node.comparePath load key depth aim = .agree ∨
      node.comparePath load key depth aim = .skipped)
    (hb : key[depth + node.path.length]? = none) :
    seek load (inner node) key depth skipped aim = (inner node).allGreater aim := by
  rcases ho with ho | ho
  all_goals
    rw [seek, ho]
    dsimp only
    split
    · rfl
    · next hb' => cases hb.symm.trans hb'

theorem seek_of_byte (ho : node.comparePath load key depth aim = .agree ∨
      node.comparePath load key depth aim = .skipped)
    (hb : key[depth + node.path.length]? = some byte) :
    seek load (inner node) key depth skipped aim =
      ((node.find? byte).bind fun child =>
        seek load child key (depth + node.path.length + 1)
          (skipped || node.comparePath load key depth aim == .skipped) aim).or
      (beside node byte aim) := by
  rcases ho with ho | ho
  all_goals
    rw [seek, ho]
    dsimp only
    split
    · next hb' => cases hb.symm.trans hb'
    · next hb' =>
      cases hb.symm.trans hb'
      rw [Option.orElse_eq_orElse, Option.orElse_eq_or]

/-! ## Searches for a key itself -/

theorem checkLeaf_of_eq (depth : Nat) (h : load v = key) :
    checkLeaf load v key depth skipped (.exact policy) = some v := by
  subst h
  rw [checkLeaf]
  split
  · rfl
  · exact if_pos ⟨rfl, rfl⟩

/-- A leaf that a search arrives at is answered only if its key begins with the key sought. -/
theorem isPrefix_of_checkLeaf (hreach : above <+: key ∨ skipped = true) (hv : above <+: load v)
    (hs : checkLeaf load v key above.length skipped (.exact policy) = some w) :
    w = v ∧ key <+: load v := by
  rw [checkLeaf] at hs
  by_cases hend : above.length = key.length ∧ skipped = false
  · rw [if_pos hend] at hs
    obtain ⟨hlen, hskip⟩ := hend
    obtain hk := hreach.resolve_right (by rw [hskip]; decide)
    exact ⟨(Option.some.inj hs).symm, hk.eq_of_length hlen ▸ hv⟩
  rw [if_neg hend] at hs
  obtain ⟨⟨-, hdrop⟩, hw⟩ := Option.ite_none_right_eq_some.1 hs
  refine ⟨(Option.some.inj hw).symm, ?_⟩
  cases skipped with
  | true =>
    rw [if_pos rfl, List.drop_zero, List.drop_zero] at hdrop
    exact hdrop ▸ List.prefix_rfl
  | false =>
    obtain ⟨k, rfl⟩ := hreach.resolve_right Bool.false_ne_true
    obtain ⟨l, hl⟩ := hv
    have hmin : min above.length (above ++ k).length = above.length := by simp
    rw [if_neg Bool.false_ne_true, hmin, ← hl, List.drop_left, List.drop_left] at hdrop
    rw [← hl, hdrop]

/-- A search for a key of the tree finds its payload, whatever it skips on the way. -/
theorem Fits.seek_of_mem (h : tree.Fits load above) (hv : v ∈ tree.toList) (policy : Policy)
    (skipped : Bool) :
    tree.seek load (load v) above.length skipped (.exact policy) = some v := by
  induction h generalizing skipped with
  | leaf =>
    rw [toList_leaf, List.mem_singleton] at hv
    subst hv
    rw [Tree.seek]
    exact checkLeaf_of_eq _ rfl
  | @inner above node path valid path_eq below ih =>
    have h : Spans load above path node := ⟨valid, path_eq, below⟩
    obtain ⟨byte, child, hc, hv⟩ := h.mem_toList.1 hv
    obtain ⟨k, hk⟩ := Key.branch_isPrefix_iff.1 (h.branch_isPrefix hc hv)
    have hget : (load v)[above.length + node.path.length]? = some byte := by
      rw [hk, h.getElem?_append, List.head?_cons]
    have ho : node.comparePath load (load v) above.length (.exact policy) = .agree ∨
        node.comparePath load (load v) above.length (.exact policy) = .skipped := by
      obtain ⟨seen, ⟨t, rfl⟩, -, hcmp⟩ := h.comparePath_eq (load v) (.exact policy)
      rw [hcmp, hk, List.drop_left, List.append_assoc, PathOrder.ofBytes_append]
      split
      · exact .inl rfl
      · exact .inr rfl
    rw [seek_of_byte ho hget, hc, Option.bind_some]
    have hs := ih byte child hc hv
      (skipped || node.comparePath load (load v) above.length (.exact policy) == .skipped)
    rw [h.length_branch] at hs
    rw [hs, Option.some_or]

/-- A search goes on below a node only where the path agrees or is skipped. -/
theorem agree_or_skipped_of_seek
    (hs : seek load (inner node) key depth skipped (.exact policy) = some v) :
    node.comparePath load key depth (.exact policy) = .agree ∨
      node.comparePath load key depth (.exact policy) = .skipped := by
  cases ho : node.comparePath load key depth (.exact policy) with
  | agree => exact .inl rfl
  | skipped => exact .inr rfl
  | below =>
    rw [seek_of_below ho] at hs
    cases hs
  | above =>
    rw [seek_of_above (.inl ho)] at hs
    cases hs
  | keyEnds =>
    rw [seek_of_above (.inr ho)] at hs
    cases hs

/-- What a search finds below a node it finds in the child under the key's next byte. -/
theorem exists_child_of_seek
    (hs : seek load (inner node) key depth skipped (.exact policy) = some v) :
    ∃ byte child, key[depth + node.path.length]? = some byte ∧ node.find? byte = some child ∧
      child.seek load key (depth + node.path.length + 1)
        (skipped || node.comparePath load key depth (.exact policy) == .skipped)
        (.exact policy) = some v := by
  have ho := agree_or_skipped_of_seek hs
  cases hb : key[depth + node.path.length]? with
  | none =>
    rw [seek_of_end ho hb] at hs
    cases hs
  | some byte =>
    rw [seek_of_byte ho hb, beside, Option.or_none] at hs
    obtain ⟨child, hc, hs⟩ := Option.bind_eq_some_iff.1 hs
    exact ⟨byte, child, rfl, hc, hs⟩

/-- Where a search arrives, every byte of the key has been compared or some have been skipped. -/
theorem Spans.reach_child (h : Spans load above path node)
    (hreach : above <+: key ∨ skipped = true)
    (ho : node.comparePath load key above.length (.exact policy) = .agree ∨
      node.comparePath load key above.length (.exact policy) = .skipped)
    (hb : key[above.length + node.path.length]? = some byte) :
    above ++ path ++ [byte] <+: key ∨ (skipped ||
      node.comparePath load key above.length (.exact policy) == .skipped) = true := by
  obtain ⟨seen, hseen, -, hcmp⟩ := h.comparePath_eq key (.exact policy)
  rcases ho with ho | ho
  · refine hreach.imp (fun hk => ?_) fun hskip => by rw [hskip, Bool.true_or]
    obtain ⟨rest, rfl⟩ := hk
    rw [hcmp, List.drop_left] at ho
    obtain ⟨hwhole, k, rfl⟩ := PathOrder.of_ofBytes_eq_agree ho
    have hseen := hseen.eq_of_length_le (of_decide_eq_true hwhole)
    subst hseen
    rw [h.getElem?_append] at hb
    obtain ⟨k, rfl⟩ := List.head?_eq_some_iff.1 hb
    exact Key.branch_isPrefix_iff.2 ⟨k, rfl⟩
  · refine .inr ?_
    rw [ho, beq_self_eq_true, Bool.or_true]

/-- A search finds only a payload of the tree whose key begins with the key sought. -/
theorem Fits.isPrefix_of_seek (h : tree.Fits load above) (hreach : above <+: key ∨ skipped = true)
    (hs : tree.seek load key above.length skipped (.exact policy) = some v) :
    v ∈ tree.toList ∧ key <+: load v := by
  induction h generalizing skipped with
  | leaf starts =>
    rw [Tree.seek] at hs
    obtain ⟨rfl, hk⟩ := isPrefix_of_checkLeaf hreach starts hs
    exact ⟨by rw [toList_leaf, List.mem_singleton], hk⟩
  | @inner above node path valid path_eq below ih =>
    have h : Spans load above path node := ⟨valid, path_eq, below⟩
    have ho := agree_or_skipped_of_seek hs
    obtain ⟨byte, child, hb, hc, hs⟩ := exists_child_of_seek hs
    rw [← h.length_branch byte] at hs
    obtain ⟨hv, hk⟩ := ih byte child hc (h.reach_child hreach ho hb) hs
    exact ⟨h.mem_toList.2 ⟨byte, child, hc, hv⟩, hk⟩

/-! ## Searches for a nearest key -/

/-- What a search is to answer, among payloads in ascending order of their keys. -/
def nearest? (load : Loader) (key : Key) (values : List UInt64) : Aim → Option UInt64
  | .exact _ => values.find? (load · = key)
  | .ceiling => values.find? (key ≤ load ·)
  | .floor => values.reverse.find? (load · ≤ key)

/-- A floor is looked for from the end. -/
theorem nearest?_append (l₁ l₂ : List UInt64) (aim : Aim) :
    nearest? load key (l₁ ++ l₂) aim =
      if aim = .floor then (nearest? load key l₂ aim).or (nearest? load key l₁ aim)
      else (nearest? load key l₁ aim).or (nearest? load key l₂ aim) := by
  cases aim <;> simp [nearest?]

theorem nearest?_of_less {l : List UInt64} (hless : ∀ v ∈ l, load v < key) (aim : Aim) :
    nearest? load key l aim = if aim = .floor then l.getLast? else none := by
  cases aim with
  | exact policy =>
    rw [if_neg (by simp)]
    refine List.find?_eq_none.2 fun v hv => ?_
    simpa using fun heq => List.lt_irrefl _ (heq ▸ hless v hv)
  | ceiling =>
    rw [if_neg (by simp)]
    refine List.find?_eq_none.2 fun v hv => ?_
    simpa using hless v hv
  | floor =>
    rw [if_pos rfl, nearest?, Probe.find?_eq_head?, List.head?_reverse]
    intro v hv
    simpa using List.le_of_lt (hless v (List.mem_reverse.1 hv))

theorem nearest?_of_greater {l : List UInt64} (hgreater : ∀ v ∈ l, key < load v) (aim : Aim) :
    nearest? load key l aim = if aim = .ceiling then l.head? else none := by
  cases aim with
  | exact policy =>
    rw [if_neg (by simp)]
    refine List.find?_eq_none.2 fun v hv => ?_
    simpa using fun heq => List.lt_irrefl _ (heq ▸ hgreater v hv)
  | ceiling =>
    rw [if_pos rfl, nearest?, Probe.find?_eq_head?]
    intro v hv
    simpa using List.le_of_lt (hgreater v hv)
  | floor =>
    rw [if_neg (by simp)]
    refine List.find?_eq_none.2 fun v hv => ?_
    simpa using hgreater v (List.mem_reverse.1 hv)

theorem allLess_eq (h : tree.Every Inhabited) (hless : ∀ v ∈ tree.toList, load v < key) :
    tree.allLess aim = nearest? load key tree.toList aim := by
  rw [nearest?_of_less hless, ← h.maximum?_eq]
  cases aim <;> simp [allLess]

theorem allGreater_eq (h : tree.Every Inhabited) (hgreater : ∀ v ∈ tree.toList, key < load v) :
    tree.allGreater aim = nearest? load key tree.toList aim := by
  rw [nearest?_of_greater hgreater, ← h.minimum?_eq]
  cases aim <;> simp [allGreater]

/-- Before the child the key leads to, and after it, stand the payloads of lesser and of greater keys,
and what is beside it are the nearest of them. -/
theorem Spans.exists_sides (h : Spans load above path node)
    (hkey : above ++ path ++ [byte] <+: key) :
    ∃ lo hi : List UInt64, (inner node).toList = lo ++ (node.find? byte).elim [] toList ++ hi ∧
      (∀ v ∈ lo, load v < key) ∧ (∀ v ∈ hi, key < load v) ∧
      beside node byte .floor = lo.getLast? ∧ beside node byte .ceiling = hi.head? := by
  obtain ⟨lo, hi, he, hlo, hhi, hafter, hbefore⟩ := Node.entries_split h.valid.layout byte
  have hfind : ∀ entry ∈ lo ++ hi, node.find? entry.1 = some entry.2 := by
    intro entry hm
    refine (Node.mem_entries h.valid.layout).1 ?_
    rw [he, List.mem_append, List.mem_append]
    exact (List.mem_append.1 hm).imp_left .inl
  have hinhabited : ∀ entry ∈ lo ++ hi, entry.2.Every Inhabited := fun entry hm =>
    (h.below _ _ (hfind entry hm)).inhabited
  refine ⟨lo.flatMap fun entry => entry.2.toList, hi.flatMap fun entry => entry.2.toList,
    ?_, fun v hv => ?_, fun v hv => ?_, ?_, ?_⟩
  · rw [toList_inner, he, List.flatMap_append, List.flatMap_append]
    cases node.find? byte <;> simp
  · obtain ⟨entry, hm, hv⟩ := List.mem_flatMap.1 hv
    have hb := h.branch_isPrefix (hfind entry (List.mem_append_left _ hm)) hv
    exact ((Key.partsBelow_of_lt (hlo entry hm)).extend hb hkey).lt
  · obtain ⟨entry, hm, hv⟩ := List.mem_flatMap.1 hv
    have hb := h.branch_isPrefix (hfind entry (List.mem_append_right _ hm)) hv
    exact ((Key.partsBelow_of_lt (hhi entry hm)).extend hkey hb).lt
  · rw [beside, hbefore]
    refine (getLast?_flatMap_toList fun entry hm => ?_).symm
    have hin := hinhabited entry (List.mem_append_left _ hm)
    exact ⟨hin.toList_ne_nil, hin.maximum?_eq⟩
  · rw [beside, hafter]
    refine (head?_flatMap_toList fun entry hm => ?_).symm
    have hin := hinhabited entry (List.mem_append_right _ hm)
    exact ⟨hin.toList_ne_nil, hin.minimum?_eq⟩

/-- The nearest payload is in the child the key leads to, or else beside it. -/
theorem Spans.nearest?_eq (h : Spans load above path node)
    (hkey : above ++ path ++ [byte] <+: key) (aim : Aim) :
    nearest? load key (inner node).toList aim =
      ((node.find? byte).bind fun child => nearest? load key child.toList aim).or
        (beside node byte aim) := by
  obtain ⟨lo, hi, hlist, hless, hgreater, hfloor, hceiling⟩ := h.exists_sides hkey
  have hmid : nearest? load key ((node.find? byte).elim [] toList) aim =
      (node.find? byte).bind fun child => nearest? load key child.toList aim := by
    cases node.find? byte with
    | none => cases aim <;> rfl
    | some child => rfl
  rw [hlist, nearest?_append, nearest?_append, nearest?_of_less hless,
    nearest?_of_greater hgreater, hmid]
  cases aim with
  | exact policy => simp [beside]
  | ceiling => simp [hceiling]
  | floor => simp [hfloor]

/-- A search for a nearest key answers what a search of all payloads would. -/
theorem Fits.seek_eq_nearest? (h : tree.Fits load above) (hkey : above <+: key)
    (haim : ∀ policy, aim ≠ .exact policy) :
    tree.seek load key above.length false aim = nearest? load key tree.toList aim := by
  induction h with
  | leaf =>
    rw [Tree.seek, toList_leaf]
    cases aim with
    | exact policy => exact absurd rfl (haim policy)
    | ceiling => simp [checkLeaf, nearest?, List.find?_singleton]
    | floor => simp [checkLeaf, nearest?, List.find?_singleton]
  | @inner above node path valid path_eq below ih =>
    have h : Spans load above path node := ⟨valid, path_eq, below⟩
    have htells := h.comparePath_tells hkey aim
    cases ho : node.comparePath load key above.length aim with
    | skipped => exact absurd ho (h.comparePath_ne_skipped (haim _))
    | below =>
      rw [ho] at htells
      rw [seek_of_below ho]
      exact allLess_eq h.fits.inhabited htells
    | above =>
      rw [ho] at htells
      rw [seek_of_above (.inl ho)]
      exact allGreater_eq h.fits.inhabited htells
    | keyEnds =>
      rw [ho] at htells
      rw [seek_of_above (.inr ho)]
      exact allGreater_eq h.fits.inhabited fun v hv => (htells v hv).2
    | agree =>
      rw [ho] at htells
      obtain ⟨k, rfl⟩ := h.isPrefix_of_agree htells
      have hget : (above ++ path ++ k)[above.length + node.path.length]? = k.head? := by
        rw [List.append_assoc, h.getElem?_append]
      cases k with
      | nil =>
        rw [seek_of_end (.inl ho) hget]
        refine allGreater_eq h.fits.inhabited fun v hv => ?_
        obtain ⟨byte, child, hc, hv⟩ := h.mem_toList.1 hv
        rw [List.append_nil]
        exact Key.lt_of_isPrefix (h.branch_isPrefix hc hv)
      | cons byte k =>
        have hbranch : above ++ path ++ [byte] <+: above ++ path ++ byte :: k := ⟨k, by simp⟩
        rw [seek_of_byte (.inl ho) hget, h.nearest?_eq hbranch, ho]
        congr 1
        cases hc : node.find? byte with
        | none => rfl
        | some child =>
          have hs := ih byte child hc hbranch
          rw [h.length_branch] at hs
          exact hs

end Tree

end AdaptiveRadix
