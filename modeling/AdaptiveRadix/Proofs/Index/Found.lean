/-
Lookups of bytes that need not be a key. A lookup may be content with the beginning of a key, so it
can answer where the contents hold nothing; but what it answers is the one payload whose key
begins with the bytes sought. The two policies differ only where the optimistic one finds nothing.
-/
import AdaptiveRadix.Proofs.Index.Reaches
import AdaptiveRadix.Proofs.Tree.Found

namespace AdaptiveRadix

variable {index : Index} {contents : Contents} {load : Loader} {key : Key} {policy : Policy}
  {v : UInt64}

namespace Index

theorem lookupWith_nil (load : Loader) (index : Index) (policy : Policy) :
    index.lookupWith load [] policy = none := by
  rw [lookupWith, Index.seek]
  cases index.root <;> rfl

/-- An answer comes from a search of the tree, and bytes were sought. -/
theorem exists_root_of_lookupWith (hs : index.lookupWith load key policy = some v) :
    ∃ root, index.root = some root ∧
      ∀ policy, index.lookupWith load key policy = root.seek load key 0 false (.exact policy) := by
  by_cases hkey : key = []
  · rw [hkey, lookupWith_nil] at hs
    cases hs
  have hseek : ∀ policy, index.lookupWith load key policy =
      index.root.bind fun root => root.seek load key 0 false (.exact policy) := by
    intro policy
    simp only [lookupWith, Index.seek, List.isEmpty_iff, if_neg hkey]
  obtain ⟨root, hr, -⟩ := Option.bind_eq_some_iff.1 ((hseek policy).symm.trans hs)
  exact ⟨root, hr, fun policy => by rw [hseek, hr, Option.bind_some]⟩

namespace Holds

/-- A lookup answers only the one payload whose key begins with the bytes sought. -/
theorem of_lookupWith (h : index.Holds load contents)
    (hs : index.lookupWith load key policy = some v) :
    contents (load v) = some v ∧ key <+: load v ∧
      ∀ other w, contents other = some w → key <+: other → other = load v ∧ w = v := by
  obtain ⟨root, hr, hseek⟩ := exists_root_of_lookupWith hs
  rw [hseek] at hs
  have hfits := h.fits root hr
  obtain ⟨hv, hp⟩ := hfits.isPrefix_of_seek (.inl List.nil_prefix) hs
  refine ⟨h.of_mem (leaves_some hr ▸ hv), hp, fun other w hc hother => ?_⟩
  obtain ⟨hw, rfl⟩ := (h.find other w).1 hc
  have heq : w = v := hfits.eq_of_seek (.inl List.nil_prefix) hs (leaves_some hr ▸ hw) hother
  exact ⟨congrArg load heq, heq⟩

theorem lookupWith_pessimistic (h : index.Holds load contents)
    (hs : index.lookupWith load key policy = some v) :
    index.lookupWith load key .pessimistic = some v := by
  obtain ⟨root, hr, hseek⟩ := exists_root_of_lookupWith hs
  rw [hseek] at hs ⊢
  exact (h.fits root hr).seek_pessimistic (.inl List.nil_prefix) hs

end Holds

end Index

/-- After any run, whatever bytes are looked up, an answer is the only payload in the index whose key
begins with them, and what an optimistic lookup answers a pessimistic one does. Without bytes there
is no answer. -/
theorem Reaches.lookup_found (h : Reaches index contents) (resolve : contents.Resolve load)
    (key : Key) :
    (∀ policy v, index.lookupWith load key policy = some v →
      contents (load v) = some v ∧ key <+: load v ∧
        ∀ other w, contents other = some w → key <+: other → other = load v ∧ w = v) ∧
    (∀ v, index.lookupWith load key .optimistic = some v →
      index.lookupWith load key .pessimistic = some v) ∧
    ∀ policy, index.lookupWith load [] policy = none := by
  have hholds := h.holds resolve
  exact ⟨fun _ _ hs => hholds.of_lookupWith hs, fun _ hs => hholds.lookupWith_pessimistic hs,
    index.lookupWith_nil load⟩

/-! ## Keys that part before their ends -/

/-- Keys that share more bytes than a path stores, and go on with another byte after they part. -/
def cousinKey : Loader := fun value => List.replicate 12 97 ++ [value.toUInt8, 0]

def oneCousin : Index :=
  ((Index.empty .pessimistic).insert cousinKey (cousinKey 1) 1).state

def cousins : Index :=
  (oneCousin.insert cousinKey (cousinKey 2) 2).state

def cousinContents : Contents :=
  Function.update (Function.update (fun _ => none) (cousinKey 1) (some 1)) (cousinKey 2) (some 2)

theorem resolve_cousins : cousinContents.Resolve cousinKey :=
  Contents.Resolve.insert (Contents.Resolve.insert (.empty cousinKey) rfl) rfl

theorem answer_oneCousin :
    ((Index.empty .pessimistic).insert cousinKey (cousinKey 1) 1).answer = .ok none := by
  cbv

theorem answer_cousins : (oneCousin.insert cousinKey (cousinKey 2) 2).answer = .ok none := by
  cbv

theorem reaches_cousins : Reaches cousins cousinContents :=
  .accept (.accept (.empty .pessimistic) (.empty cousinKey) rfl answer_oneCousin)
    (Contents.Resolve.insert (.empty cousinKey) rfl) rfl answer_cousins

/-- The bytes through the one where the keys part are found by a pessimistic lookup and are enough;
an optimistic one has skipped some of them and wants the whole key. -/
theorem cousins_lookup_found :
    (cousins.lookupWith cousinKey (List.replicate 12 97 ++ [1]) .pessimistic = some 1 ∧
      ∀ other w, cousinContents other = some w → List.replicate 12 97 ++ [1] <+: other →
        other = cousinKey 1 ∧ w = 1) ∧
    cousins.lookupWith cousinKey (List.replicate 12 97 ++ [1]) .optimistic = none ∧
    (cousins.lookupWith cousinKey (cousinKey 1) .optimistic = some 1 ∧
      cousins.lookupWith cousinKey (cousinKey 1) .pessimistic = some 1) := by
  have hbeginning :
      cousins.lookupWith cousinKey (List.replicate 12 97 ++ [1]) .pessimistic = some 1 := by
    cbv
  have hwhole : cousins.lookupWith cousinKey (cousinKey 1) .optimistic = some 1 := by cbv
  obtain ⟨hfound, -⟩ :=
    Reaches.lookup_found reaches_cousins resolve_cousins (List.replicate 12 97 ++ [1])
  obtain ⟨-, hpessimistic, -⟩ :=
    Reaches.lookup_found reaches_cousins resolve_cousins (cousinKey 1)
  exact ⟨⟨hbeginning, (hfound _ _ hbeginning).2.2⟩, by cbv, hwhole, hpessimistic _ hwhole⟩

end AdaptiveRadix
