/-
Runs that lose nothing. From an empty index on, keys come in and none goes out; attempts that fail
are no loss. In such a run every node is of the smallest kind with room for its children.
-/
import AdaptiveRadix.Proofs.Index.Reaches
import AdaptiveRadix.Proofs.Tree.Growth

namespace AdaptiveRadix

/-- An index and its contents after a run that has lost no key since the index was last empty. -/
inductive Gathers : Index → Contents → Prop
  | empty (policy : Policy) : Gathers (.empty policy) fun _ => none
  | clear {index : Index} {contents : Contents} (h : Reaches index contents) :
      Gathers index.clear fun _ => none
  | accept {index : Index} {contents : Contents} {load : Loader} {key : Key} {value : UInt64}
      {old : Option UInt64} (h : Gathers index contents) (resolve : contents.Resolve load)
      (resolves : load value = key) (answer : (index.insert load key value).answer = .ok old) :
      Gathers (index.insert load key value).state (Function.update contents key (some value))
  | reject {index : Index} {contents : Contents} {load : Loader} {key : Key} {value : UInt64}
      {reason : InsertError} (h : Gathers index contents) (resolve : contents.Resolve load)
      (resolves : load value = key) (answer : (index.insert load key value).answer = .error reason) :
      Gathers (index.insert load key value).state contents
  | miss {index : Index} {contents : Contents} {load : Loader} {key : Key}
      (h : Gathers index contents) (resolve : contents.Resolve load) (absent : contents key = none) :
      Gathers (index.erase load key).state contents

variable {index : Index} {contents : Contents} {load : Loader} {key : Key} {value : UInt64}

theorem Gathers.reaches (h : Gathers index contents) : Reaches index contents := by
  induction h with
  | empty policy => exact .empty policy
  | clear h => exact .clear h
  | accept _ resolve resolves answer ih => exact .accept ih resolve resolves answer
  | reject _ resolve resolves answer ih => exact .reject ih resolve resolves answer
  | @miss index contents load key _ resolve absent ih =>
    have h := Reaches.erase key ih resolve
    rwa [← absent, Function.update_eq_self] at h

/-! ## The kinds of the nodes -/

/-- Insertion into an index keeps every rule of growth. -/
theorem Index.every_insert {rule : Kind → Nat → Prop} (hrule : Kind.GrowthRule rule)
    (h : ∀ root, index.root = some root → root.Every (Node.Obeys rule)) :
    ∀ root, (index.insert load key value).state.root = some root →
      root.Every (Node.Obeys rule) := by
  unfold Index.insert
  split
  · exact h
  · rintro root ⟨⟩
    exact .leaf value
  · next root _ hr =>
    rintro _ ⟨⟩
    exact (h root hr).insertAt hrule

/-- A node of the smallest kind with room for its children, of which it has at least two. -/
abbrev Node.Snug {α : Type} (node : Node α) : Prop :=
  node.Obeys fun kind count => 2 ≤ count ∧ kind = .suiting count

/-- In a run that loses nothing every node is of the smallest kind with room for its children. -/
theorem Gathers.snug (h : Gathers index contents) :
    ∀ root, index.root = some root → root.Every Node.Snug := by
  induction h with
  | empty policy => exact nofun
  | clear h => exact nofun
  | accept _ _ _ _ ih => exact Index.every_insert Kind.growthRule_suiting ih
  | reject _ _ _ _ ih => exact Index.every_insert Kind.growthRule_suiting ih
  | miss h resolve absent ih =>
    rw [(h.reaches.holds resolve).erase_of_eq_none absent]
    exact ih

/-! ## Many payloads at once -/

/-- The index into which payloads were put one after another, each under its key. -/
def Index.gather (load : Loader) (policy : Policy) (values : List UInt64) : Index :=
  values.foldl (fun index value => (index.insert load (load value) value).state) (.empty policy)

/-- None of the keys of some payloads begins another. -/
def PrefixFree (load : Loader) (values : List UInt64) : Prop :=
  values.Pairwise fun v w => ¬ load v <+: load w ∧ ¬ load w <+: load v

/-- The contents are some payloads, each under its key, without those whose keys are not fit to be
indexed. -/
def Contents.Collects (contents : Contents) (load : Loader) (values : List UInt64) : Prop :=
  ∀ key v, contents key = some v ↔ (v ∈ values ∧ load v = key) ∧ Key.check key = .ok ()

namespace Contents.Collects

variable {values : List UInt64}

theorem resolve (h : contents.Collects load values) : contents.Resolve load := by
  intro key v hc
  exact ((h key v).1 hc).1.2

/-- A key that parts from those of all payloads clashes with none. -/
theorem not_clash (h : contents.Collects load values)
    (hfree : ∀ v ∈ values, ¬ load v <+: key ∧ ¬ key <+: load v) : ¬ contents.Clash key := by
  intro hclash
  obtain ⟨_, ho, -, hp⟩ := hclash
  obtain ⟨v, hc⟩ := Option.ne_none_iff_exists'.1 ho
  obtain ⟨⟨hv, rfl⟩, -⟩ := (h _ v).1 hc
  exact not_or.2 (hfree v hv) hp

theorem concat_unfit (h : contents.Collects load values)
    (hcheck : Key.check (load value) ≠ .ok ()) : contents.Collects load (values ++ [value]) := by
  intro key v
  rw [h, List.mem_append, List.mem_singleton]
  refine and_congr_left fun hok => and_congr_left fun hkey => ?_
  have hne : v ≠ value := fun he => hcheck (he ▸ hkey ▸ hok)
  simp [hne]

theorem concat_fit (h : contents.Collects load values) (hcheck : Key.check (load value) = .ok ())
    (hnew : ∀ v ∈ values, load v ≠ load value) :
    Collects (Function.update contents (load value) (some value)) load (values ++ [value]) := by
  intro key v
  rw [List.mem_append, List.mem_singleton]
  by_cases hk : key = load value
  · subst hk
    rw [Function.update_self, Option.some.injEq]
    constructor
    · intro he
      subst he
      exact ⟨⟨.inr rfl, rfl⟩, hcheck⟩
    · intro hv
      exact (hv.1.1.resolve_left fun hm => hnew v hm hv.1.2).symm
  · rw [Function.update_of_ne hk, h]
    refine and_congr_left fun _ => and_congr_left fun hkey => ?_
    have hne : v ≠ value := fun he => hk (he ▸ hkey.symm)
    simp [hne]

end Contents.Collects

/-- Of payloads with prefix-free keys all come in but those whose keys are not fit to be indexed. -/
theorem gathers_gather (policy : Policy) {values : List UInt64} (hfree : PrefixFree load values) :
    ∃ contents, Gathers (.gather load policy values) contents ∧ contents.Collects load values := by
  induction values using List.reverseRecOn with
  | nil => exact ⟨_, .empty policy, by simp [Contents.Collects]⟩
  | append_singleton values value ih =>
    obtain ⟨hvalues, -, hlast⟩ := List.pairwise_append.1 hfree
    obtain ⟨contents, hgathers, hcollects⟩ := ih hvalues
    have hparts : ∀ v ∈ values, ¬ load v <+: load value ∧ ¬ load value <+: load v :=
      fun v hv => hlast v hv value (List.mem_singleton_self value)
    have hresolve := hcollects.resolve
    rw [Index.gather, List.foldl_concat]
    rcases (hgathers.reaches.holds hresolve).insert_cases (rfl : load value = load value) with
      ⟨reason, hcheck, hdone⟩ | ⟨-, hclash, -⟩ | ⟨hcheck, -, hanswer, -⟩
    · have hanswer := congrArg Outcome.answer hdone
      have hunfit : Key.check (load value) ≠ .ok () := by simp [hcheck]
      exact ⟨contents, .reject hgathers hresolve rfl hanswer, hcollects.concat_unfit hunfit⟩
    · exact absurd hclash (hcollects.not_clash hparts)
    · have hnew : ∀ v ∈ values, load v ≠ load value :=
        fun v hv heq => (hparts v hv).1 (heq ▸ List.prefix_rfl)
      exact ⟨_, .accept hgathers hresolve rfl hanswer, hcollects.concat_fit hcheck hnew⟩

end AdaptiveRadix
