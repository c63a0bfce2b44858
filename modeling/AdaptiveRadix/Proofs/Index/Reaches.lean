/-
The index as an ordered map. A run is any order of insertions, erasures and clears that starts
from an empty index; every call may bring its own loader, as long as it gives the payloads in
the index the keys they were inserted under. Beside the index a run keeps the contents of the
map, which change when a key is accepted, erased or cleared away, and at no other time.
-/
import AdaptiveRadix.Proofs.Index.Holds

namespace AdaptiveRadix

/-- An index and its contents after some run. -/
inductive Reaches : Index → Contents → Prop
  | empty (policy : Policy) : Reaches (.empty policy) fun _ => none
  | accept {index : Index} {contents : Contents} {load : Loader} {key : Key} {value : UInt64}
      {old : Option UInt64} (h : Reaches index contents) (resolve : contents.Resolve load)
      (resolves : load value = key) (answer : (index.insert load key value).answer = .ok old) :
      Reaches (index.insert load key value).state (Function.update contents key (some value))
  | reject {index : Index} {contents : Contents} {load : Loader} {key : Key} {value : UInt64}
      {reason : InsertError} (h : Reaches index contents) (resolve : contents.Resolve load)
      (resolves : load value = key) (answer : (index.insert load key value).answer = .error reason) :
      Reaches (index.insert load key value).state contents
  | erase {index : Index} {contents : Contents} {load : Loader} (key : Key)
      (h : Reaches index contents) (resolve : contents.Resolve load) :
      Reaches (index.erase load key).state (Function.update contents key none)
  | clear {index : Index} {contents : Contents} (h : Reaches index contents) :
      Reaches index.clear fun _ => none

variable {index : Index} {contents : Contents} {load : Loader} {key : Key} {value : UInt64}

/-- After any run the index holds its contents, for whatever loader resolves them. -/
theorem Reaches.holds (h : Reaches index contents) (resolve : contents.Resolve load) :
    index.Holds load contents := by
  induction h generalizing load with
  | empty policy => exact .empty load policy
  | accept _ hload hkey hanswer ih =>
    rcases (ih hload).insert_cases hkey with ⟨_, -, hd⟩ | ⟨-, -, hd⟩ | ⟨-, -, -, hholds⟩
    · rw [hd] at hanswer
      cases hanswer
    · rw [hd] at hanswer
      cases hanswer
    · exact hholds.congr resolve
  | reject _ hload hkey hanswer ih =>
    rcases (ih hload).insert_cases hkey with ⟨_, -, hd⟩ | ⟨-, -, hd⟩ | ⟨-, -, hok, -⟩
    · rw [hd]
      exact ih resolve
    · rw [hd]
      exact ih resolve
    · cases hanswer.symm.trans hok
  | erase key _ hload ih => exact ((ih hload).erase key).2.congr resolve
  | clear _ _ => exact .empty load _

/-- The loader of the last call still resolves the contents. -/
theorem Reaches.exists_resolve (h : Reaches index contents) : ∃ load, contents.Resolve load := by
  cases h with
  | empty policy => exact ⟨fun _ => [], .empty _⟩
  | accept _ hload hkey _ => exact ⟨_, hload.insert hkey⟩
  | reject _ hload _ _ => exact ⟨_, hload⟩
  | erase key h hload => exact ⟨_, ((h.holds hload).erase key).2.resolve⟩
  | clear _ => exact ⟨fun _ => [], .empty _⟩

/-- The entries of the contents, in ascending order of their keys. -/
structure Contents.Lists (contents : Contents) (entries : List (Key × UInt64)) : Prop where
  ascending : entries.Pairwise (·.1 < ·.1)
  mem : ∀ key value, (key, value) ∈ entries ↔ contents key = some value

/-- Payloads in the order of their keys list the contents that they are. -/
theorem Contents.lists_map {values : List UInt64}
    (hasc : values.Pairwise fun v w => load v < load w)
    (hmem : ∀ key value, contents key = some value ↔ value ∈ values ∧ load value = key) :
    contents.Lists (values.map fun v => (load v, v)) := by
  refine ⟨List.pairwise_map.2 hasc, fun key value => ?_⟩
  rw [hmem, List.mem_map]
  constructor
  · rintro ⟨v, hv, heq⟩
    cases heq
    exact ⟨hv, rfl⟩
  · rintro ⟨hv, rfl⟩
    exact ⟨value, hv, rfl⟩

theorem map_snd_map_load (load : Loader) (values : List UInt64) :
    (values.map fun v => (load v, v)).map Prod.snd = values := by
  rw [List.map_map]
  exact List.map_id _

theorem Index.Holds.lists (h : index.Holds load contents) :
    contents.Lists (index.leaves.map fun v => (load v, v)) :=
  Contents.lists_map h.ascending h.find

/-- After any run the index answers, lists and counts as the map of its contents does. -/
theorem Reaches.refines (h : Reaches index contents) :
    (∀ load key value, contents.Resolve load → load value = key →
      (∃ reason, index.insert load key value = .unchanged index (.error reason)) ∨
        (index.insert load key value).answer = .ok (contents key)) ∧
    (∀ load key, contents.Resolve load →
      (index.erase load key).answer = contents key ∧
        (contents key = none → (index.erase load key).state = index)) ∧
    ∃ entries, contents.Lists entries ∧ index.payloads = entries.map Prod.snd ∧
      index.length = entries.length ∧ (index.isEmpty ↔ ∀ key, contents key = none) ∧
      index.minimum? = entries.head?.map Prod.snd ∧
      index.maximum? = entries.getLast?.map Prod.snd := by
  refine ⟨fun load key value hload hkey => ?_, fun load key hload => ?_, ?_⟩
  · rcases (h.holds hload).insert_cases hkey with ⟨_, -, hd⟩ | ⟨-, -, hd⟩ | ⟨-, -, hanswer, -⟩
    · exact .inl ⟨_, hd⟩
    · exact .inl ⟨_, hd⟩
    · exact .inr hanswer
  · refine ⟨((h.holds hload).erase key).1, fun hnone => ?_⟩
    rw [(h.holds hload).erase_of_eq_none hnone]
    rfl
  · obtain ⟨load, hload⟩ := h.exists_resolve
    have hholds := h.holds hload
    have hsnd := map_snd_map_load load index.leaves
    refine ⟨_, hholds.lists, ?_, ?_, ?_, ?_, ?_⟩
    · rw [hsnd, hholds.payloads_eq]
    · rw [hholds.length, List.length_map]
    · exact hholds.isEmpty_iff
    · rw [← List.head?_map, hsnd, hholds.minimum?_eq]
    · rw [← List.getLast?_map, hsnd, hholds.maximum?_eq]

/-! ## Two keys in an index -/

/-- Keys that share more bytes than a path stores. -/
def twinKey : Loader := fun value => List.replicate 12 97 ++ [value.toUInt8]

def oneTwin : Index :=
  ((Index.empty .pessimistic).insert twinKey (twinKey 1) 1).state

def twins : Index :=
  (oneTwin.insert twinKey (twinKey 2) 2).state

def twinContents : Contents :=
  Function.update (Function.update (fun _ => none) (twinKey 1) (some 1)) (twinKey 2) (some 2)

theorem resolve_twins : twinContents.Resolve twinKey :=
  Contents.Resolve.insert (Contents.Resolve.insert (.empty twinKey) rfl) rfl

theorem eq_twinKey {key : Key} (h : twinContents key ≠ none) : key = twinKey 1 ∨ key = twinKey 2 := by
  by_contra hne
  obtain ⟨h1, h2⟩ := not_or.1 hne
  exact h (by rw [twinContents, Function.update_of_ne h2, Function.update_of_ne h1])

theorem answer_oneTwin :
    ((Index.empty .pessimistic).insert twinKey (twinKey 1) 1).answer = .ok none := by
  cbv

theorem answer_twins : (oneTwin.insert twinKey (twinKey 2) 2).answer = .ok none := by
  cbv

theorem reaches_twins : Reaches twins twinContents :=
  .accept (.accept (.empty .pessimistic) (.empty twinKey) rfl answer_oneTwin)
    (Contents.Resolve.insert (.empty twinKey) rfl) rfl answer_twins

theorem twins_refine :
    (twins.erase twinKey (twinKey 1)).answer = some 1 ∧
      ∃ entries, twinContents.Lists entries ∧ twins.payloads = entries.map Prod.snd ∧
        twins.length = entries.length := by
  obtain ⟨-, herase, entries, hlists, hpayloads, hlength, -⟩ := Reaches.refines reaches_twins
  have hanswer := (herase twinKey (twinKey 1) resolve_twins).1
  exact ⟨hanswer.trans (by decide), entries, hlists, hpayloads, hlength⟩

end AdaptiveRadix
