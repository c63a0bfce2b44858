/-
The strings with a given beginning. The index by string has keys, and a key is a string and its
terminator; so what is found for a beginning is the strings that begin so, and beside them a
string whose key is the whole beginning. The latter begins so only up to the terminator.
-/
import AdaptiveRadix.Proofs.Dictionary.Agreement
import AdaptiveRadix.Proofs.Index.Subtree

namespace AdaptiveRadix

/-- The first and the last of a list, unless it is empty. -/
def ends? {α : Type} (l : List α) : Option (α × α) := do
  return (← l.head?, ← l.getLast?)

@[simp] theorem ends?_eq_none_iff {α : Type} {l : List α} : ends? l = none ↔ l = [] := by
  cases l <;> simp [ends?, List.getLast?_cons]

theorem ends?_eq_some_iff {α : Type} {l : List α} {first last : α} :
    ends? l = some (first, last) ↔ l.head? = some first ∧ l.getLast? = some last := by
  simp [ends?, Option.bind_eq_some_iff]

namespace Dictionary

/-- The ids of the strings that are as wanted, each with its string, in the order of the strings. -/
structure Lists (dict : Dictionary) (wanted : List UInt8 → Prop)
    (entries : List (UInt64 × List UInt8)) : Prop where
  ascending : entries.Pairwise (·.2 < ·.2)
  mem : ∀ id s, (id, s) ∈ entries ↔ dict.lookupId? s = some id ∧ wanted s

variable {dict : Dictionary} {ledger : Ledger} {s start : List UInt8}
  {wanted : List UInt8 → Prop} {entries : List (UInt64 × List UInt8)}

theorem Lists.congr {wanted' : List UInt8 → Prop} (h : dict.Lists wanted entries)
    (hiff : ∀ s, wanted s ↔ wanted' s) : dict.Lists wanted' entries :=
  ⟨h.ascending, fun id s => (h.mem id s).trans (and_congr_right fun _ => hiff s)⟩

theorem Lists.eq_nil_iff (h : dict.Lists wanted entries) :
    entries = [] ↔ ∀ s, dict.contains s → ¬ wanted s := by
  rw [List.eq_nil_iff_forall_not_mem]
  constructor
  · intro hnot s hs hw
    obtain ⟨id, hid⟩ := Option.isSome_iff_exists.1 hs
    exact hnot (id, s) ((h.mem id s).2 ⟨hid, hw⟩)
  · rintro hno ⟨id, s⟩ he
    obtain ⟨hid, hw⟩ := (h.mem id s).1 he
    exact hno s (by rw [contains, hid]; rfl) hw

/-- A string with a terminator in it has no key, so it is never there. -/
theorem terminator_not_mem (hs : dict.contains s) : Key.terminator ∉ s := by
  rw [contains, lookupId?] at hs
  cases hkey : Key.encode s with
  | ok key => exact (Key.encode_eq_ok_iff.1 hkey).1
  | error reason =>
    rw [hkey] at hs
    cases hs

namespace Keeps

theorem ascending_toList (h : dict.Keeps ledger) : dict.toList.Pairwise (·.2 < ·.2) := by
  rw [h.toList_eq, List.pairwise_map]
  exact Std.TreeMap.ordered_keys_toList.imp Key.compare_eq_lt_iff.1

/-- What the index by string has for a beginning is in the order of the strings. -/
theorem filter_leaves (h : dict.Keeps ledger) (start : List UInt8) :
    dict.byString.leaves.filter (fun id => start.isPrefixOf (dict.store.load id)) =
      (dict.toList.filter fun e => start.isPrefixOf (e.2 ++ [Key.terminator])).map Prod.fst := by
  rw [← h.map_fst_toList, List.filter_map]
  refine congrArg (List.map Prod.fst) (List.filter_congr fun entry he => ?_)
  rw [Function.comp_apply, Store.load_of_get? (h.mem_toList.1 he)]

/-- A beginning finds the strings whose keys begin so. -/
theorem startingWith (h : dict.Keeps ledger) (start : List UInt8) :
    ∃ entries, dict.Lists (start <+: · ++ [Key.terminator]) entries ∧
      dict.idsStartingWith start = entries.map Prod.fst ∧
      dict.rangeStartingWith? start = ends? (entries.map Prod.fst) := by
  refine ⟨dict.toList.filter fun e => start.isPrefixOf (e.2 ++ [Key.terminator]), ?_, ?_⟩
  · refine ⟨h.ascending_toList.sublist List.filter_sublist, fun id s => ?_⟩
    rw [List.mem_filter, List.isPrefixOf_iff_prefix, h.mem_toList, h.found, h.lookupId?_eq,
      h.valid.inverse]
  · rw [← h.filter_leaves, idsStartingWith, rangeStartingWith?]
    rcases h.byString.subtree?_cases start with
      ⟨hnone, hnil⟩ | ⟨below, hsome, hpayloads, hminimum, hmaximum⟩
    · rw [hnone, hnil]
      exact ⟨rfl, rfl⟩
    · rw [hsome, Option.elim_some, hpayloads]
      refine ⟨rfl, ?_⟩
      simp only [Option.bind_eq_bind, Option.bind_some, hminimum, hmaximum]
      rfl

/-- Where the beginning has no terminator in it, a key begins with it when its string does. -/
theorem startingWith_of_not_mem (h : dict.Keeps ledger) (hstart : Key.terminator ∉ start) :
    ∃ entries, dict.Lists (start <+: ·) entries ∧
      dict.idsStartingWith start = entries.map Prod.fst ∧
      dict.rangeStartingWith? start = ends? (entries.map Prod.fst) := by
  obtain ⟨entries, hlists, hfound⟩ := h.startingWith start
  refine ⟨entries, hlists.congr fun s => List.prefix_concat_iff.trans (or_iff_right ?_), hfound⟩
  rintro rfl
  exact hstart (List.mem_append_right s (List.mem_singleton_self _))

end Keeps

/-- After any run a beginning finds the strings that begin so, and a string that is the beginning but
for the terminator at its end: all their ids in the order of the strings, and the first and the
last of these. -/
theorem run_starting_with (config : Config) (calls : List DictionaryCall) (start : List UInt8) :
    let dict := ((empty config).run calls).2
    ∃ entries, dict.Lists (fun s => start <+: s ∨ start = s ++ [Key.terminator]) entries ∧
      dict.idsStartingWith start = entries.map Prod.fst ∧
      dict.rangeStartingWith? start = ends? (entries.map Prod.fst) ∧
      (dict.rangeStartingWith? start = none ↔
        ∀ s, dict.contains s → ¬ (start <+: s ∨ start = s ++ [Key.terminator])) := by
  intro dict
  obtain ⟨entries, hlists, hids, hrange⟩ :=
    ((keeps_empty config).run calls).2.startingWith start
  have hlists := hlists.congr fun s => List.prefix_concat_iff.trans or_comm
  refine ⟨entries, hlists, hids, hrange, ?_⟩
  rw [hrange, ends?_eq_none_iff, List.map_eq_nil_iff, hlists.eq_nil_iff]

/-- A string is found for a beginning that goes on with the terminator where the string ends. -/
theorem finds_terminated_start :
    let dict := ((empty {}).run [.insert [97]]).2
    dict.idsStartingWith [97, 0] = [1] ∧ dict.rangeStartingWith? [97, 0] = some (1, 1) ∧
      ∀ s, dict.contains s → ¬ [97, 0] <+: s := by
  refine ⟨by decide +kernel, by decide +kernel, fun s hs hp => ?_⟩
  exact terminator_not_mem hs (hp.subset (List.mem_cons_of_mem 97 List.mem_cons_self))

end Dictionary

end AdaptiveRadix
