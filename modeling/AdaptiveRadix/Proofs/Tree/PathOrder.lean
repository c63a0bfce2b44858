/-
What comparing the path of a node with a search key tells of all the keys below the node. Only one
of them was asked, and of an optimistic search not even one; but the path is that of all of them,
so that below, above and at the end of the key they stand to it as the path does.
-/
import AdaptiveRadix.Proofs.Tree.Fits
import AdaptiveRadix.Tree.Seek

namespace AdaptiveRadix

namespace PathOrder

variable {whole : Bool} {path rest : List UInt8}

/-! ## Bytes -/

/-- How the bytes of a path can stand to the rest of a search key. -/
theorem ofBytes_cases (whole : Bool) (path rest : List UInt8) :
    (∃ k, rest = path ++ k ∧ ofBytes whole path rest = if whole then agree else skipped) ∨
      (Key.PartsBelow path rest ∧ ofBytes whole path rest = below) ∨
      (Key.PartsBelow rest path ∧ ofBytes whole path rest = above) ∨
      ∃ y s, path = rest ++ y :: s ∧ ofBytes whole path rest = keyEnds := by
  induction path generalizing rest with
  | nil => exact .inl ⟨rest, rfl, rfl⟩
  | cons a path ih =>
    cases rest with
    | nil => exact .inr (.inr (.inr ⟨a, path, rfl, rfl⟩))
    | cons b rest =>
      by_cases hab : a < b
      · exact .inr (.inl ⟨⟨[], a, b, ⟨path, rfl⟩, ⟨rest, rfl⟩, hab⟩, by rw [ofBytes, if_pos hab]⟩)
      by_cases hba : b < a
      · exact .inr (.inr (.inl
          ⟨⟨[], b, a, ⟨rest, rfl⟩, ⟨path, rfl⟩, hba⟩, by rw [ofBytes, if_neg hab, if_pos hba]⟩))
      have heq : a = b := UInt8.le_antisymm (UInt8.not_lt.1 hba) (UInt8.not_lt.1 hab)
      subst heq
      rw [ofBytes, if_neg hab, if_neg hba]
      rcases ih rest with ⟨k, rfl, ho⟩ | ⟨hp, ho⟩ | ⟨hp, ho⟩ | ⟨y, s, rfl, ho⟩
      · exact .inl ⟨k, rfl, ho⟩
      · exact .inr (.inl ⟨hp.append_left [a], ho⟩)
      · exact .inr (.inr (.inl ⟨hp.append_left [a], ho⟩))
      · exact .inr (.inr (.inr ⟨y, s, rfl, ho⟩))

theorem ofBytes_append (whole : Bool) (path k : List UInt8) :
    ofBytes whole path (path ++ k) = if whole then agree else skipped := by
  induction path with
  | nil => rfl
  | cons a path ih =>
    rw [List.cons_append, ofBytes, if_neg (UInt8.lt_irrefl a), if_neg (UInt8.lt_irrefl a)]
    exact ih

/-- Only a whole path agrees with a key. -/
theorem of_ofBytes_eq_agree
    (h : ofBytes whole path rest = agree) : whole = true ∧ path <+: rest := by
  rcases ofBytes_cases whole path rest with ⟨k, rfl, ho⟩ | ⟨-, ho⟩ | ⟨-, ho⟩ | ⟨-, -, -, ho⟩
  · cases whole with
    | false => cases h.symm.trans ho
    | true => exact ⟨rfl, List.prefix_append ..⟩
  all_goals cases h.symm.trans ho

/-- A search goes on where what it has of a path begins the rest of the key. -/
theorem agree_or_skipped_iff :
    ofBytes whole path rest = agree ∨ ofBytes whole path rest = skipped ↔ path <+: rest := by
  rcases ofBytes_cases whole path rest with ⟨k, rfl, ho⟩ | ⟨hp, ho⟩ | ⟨hp, ho⟩ | ⟨y, s, rfl, ho⟩
  · rw [ho]
    exact iff_of_true (by cases whole <;> simp) (List.prefix_append ..)
  · rw [ho]
    exact iff_of_false (by simp) (Key.Parts.not_isPrefix (.inl hp))
  · rw [ho]
    exact iff_of_false (by simp) (Key.Parts.not_isPrefix (.inr hp))
  · rw [ho]
    refine iff_of_false (by simp) fun hp => ?_
    have hlength := hp.length_le
    rw [List.length_append, List.length_cons] at hlength
    omega

/-- What is skipped is what is missing of a path of which all the rest agrees. -/
theorem of_ofBytes_eq_skipped (h : ofBytes whole path rest = skipped) :
    whole = false ∧ path <+: rest := by
  refine ⟨?_, agree_or_skipped_iff.1 (.inr h)⟩
  rcases ofBytes_cases whole path rest with ⟨-, -, ho⟩ | ⟨-, ho⟩ | ⟨-, ho⟩ | ⟨-, -, -, ho⟩
  · cases whole with
    | false => rfl
    | true => cases h.symm.trans ho
  all_goals cases h.symm.trans ho

/-! ## Keys -/

/-- What the order of a path and a search key, compared from a depth on, is to tell of the keys below
the node. -/
def Tells (load : Loader) (node : Node Tree) (depth : Nat) (key : Key) : PathOrder → Prop
  | agree => ∀ v ∈ (Tree.inner node).toList,
      (load v).take (depth + node.path.length) = key.take (depth + node.path.length)
  | skipped => node.path.isTruncated ∧ node.path.inline.length = Path.capacity ∧
      node.path.inline <+: key.drop depth
  | below => ∀ v ∈ (Tree.inner node).toList, load v < key
  | above => ∀ v ∈ (Tree.inner node).toList, key < load v
  | keyEnds => ∀ v ∈ (Tree.inner node).toList, key <+: load v ∧ key < load v

end PathOrder

namespace Tree

variable {load : Loader} {above path key : Key} {node : Node Tree} {v : UInt64} {aim : Aim}

/-- A search compares a beginning of the path, and all of it unless it is optimistic. -/
theorem Spans.comparePath_eq (h : Spans load above path node) (key : Key) (aim : Aim) :
    ∃ seen, seen <+: path ∧ (aim ≠ .exact .optimistic → seen = path) ∧
      node.comparePath load key above.length aim =
        .ofBytes (path.length ≤ seen.length) seen (key.drop above.length) := by
  rw [Node.comparePath]
  simp only [h.fullPath_eq, h.inline_path, h.length_path]
  by_cases ha : aim = .exact .optimistic
  · rw [if_pos ha]
    exact ⟨_, List.take_prefix .., fun hne => absurd ha hne, rfl⟩
  · rw [if_neg ha]
    exact ⟨path, List.prefix_rfl, fun _ => rfl, rfl⟩

/-- Only what is not stored is skipped, after all that is stored has agreed. -/
theorem of_comparePath_eq_skipped {depth : Nat}
    (ho : node.comparePath load key depth (.exact .optimistic) = .skipped) :
    node.path.isTruncated ∧ node.path.inline.length = Path.capacity ∧
      node.path.inline <+: key.drop depth := by
  obtain ⟨hwhole, hprefix⟩ := PathOrder.of_ofBytes_eq_skipped ho
  have hlong : node.path.inline.length < node.path.length := by simpa using hwhole
  rw [Path.length_inline] at hlong
  refine ⟨Path.isTruncated_iff.2 ?_, ?_, hprefix⟩
  · omega
  · rw [Path.length_inline]
    omega

namespace Spans

theorem comparePath_ne_skipped (h : Spans load above path node) (haim : aim ≠ .exact .optimistic) :
    node.comparePath load key above.length aim ≠ .skipped := by
  intro ho
  obtain ⟨seen, -, hseen, hcmp⟩ := h.comparePath_eq key aim
  rw [hseen haim] at hcmp
  have hwhole := (PathOrder.of_ofBytes_eq_skipped (hcmp.symm.trans ho)).1
  simp at hwhole

/-- The keys below a node have the bytes above it and those of its path. -/
theorem take_eq (h : Spans load above path node) (hv : v ∈ (inner node).toList) :
    (load v).take (above.length + node.path.length) = above ++ path := by
  rw [h.length_path, ← List.length_append]
  exact (List.prefix_iff_eq_take.1 (h.isPrefix hv)).symm

/-- The verdict on a path is one on all the keys below the node. -/
theorem comparePath_tells (h : Spans load above path node) (hkey : above <+: key) (aim : Aim) :
    (node.comparePath load key above.length aim).Tells load node above.length key := by
  by_cases hskip : node.comparePath load key above.length aim = .skipped
  · have haim : aim = .exact .optimistic := by_contra fun hne => h.comparePath_ne_skipped hne hskip
    subst haim
    rw [hskip]
    exact of_comparePath_eq_skipped hskip
  obtain ⟨rest, rfl⟩ := hkey
  obtain ⟨seen, hseen, -, hcmp⟩ := h.comparePath_eq (above ++ rest) aim
  have hbelow : ∀ v ∈ (inner node).toList, above ++ seen <+: load v := fun v hv =>
    ((List.prefix_append_right_inj above).2 hseen).trans (h.isPrefix hv)
  rw [List.drop_left] at hcmp
  -- All keys below begin with what was seen, and stand to the key as that does.
  rcases PathOrder.ofBytes_cases (path.length ≤ seen.length) seen rest with
    ⟨k, rfl, ho⟩ | ⟨hp, ho⟩ | ⟨hp, ho⟩ | ⟨y, s, rfl, ho⟩
  · have hwhole : path.length ≤ seen.length := by
      by_contra hmissing
      exact hskip (by rw [hcmp, ho, decide_eq_false hmissing]; rfl)
    obtain rfl := hseen.eq_of_length_le hwhole
    rw [hcmp, ho, decide_eq_true hwhole]
    intro v hv
    rw [h.take_eq hv, h.length_path, ← List.length_append, ← List.append_assoc, List.take_left]
  · rw [hcmp, ho]
    exact fun v hv => ((hp.append_left above).extend (hbelow v hv) List.prefix_rfl).lt
  · rw [hcmp, ho]
    exact fun v hv => ((hp.append_left above).extend List.prefix_rfl (hbelow v hv)).lt
  · rw [hcmp, ho]
    intro v hv
    have hends : above ++ rest ++ [y] <+: load v := by
      refine List.IsPrefix.trans ⟨s, ?_⟩ (hbelow v hv)
      rw [List.append_assoc, List.append_assoc, List.singleton_append]
    exact ⟨(List.prefix_append ..).trans hends, Key.lt_of_isPrefix hends⟩

/-- A key that agrees with a path goes on with it. -/
theorem isPrefix_of_agree (h : Spans load above path node)
    (ho : PathOrder.Tells load node above.length key .agree) : above ++ path <+: key := by
  obtain ⟨v, hv⟩ := h.fits.exists_mem
  rw [← h.take_eq hv, ho v hv]
  exact List.take_prefix ..

end Spans

end Tree

end AdaptiveRadix
