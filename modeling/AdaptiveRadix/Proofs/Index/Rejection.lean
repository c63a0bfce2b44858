/-
Rejected keys. An index refuses a key that is empty, too long, or in conflict with one of its own,
and no other; the payload that comes with the key makes no difference. A refusal leaves
everything as it was.
-/
import AdaptiveRadix.Proofs.Index.Reaches

namespace AdaptiveRadix

variable {index : Index} {contents : Contents} {load : Loader}

/-- After any run a key is rejected for what it is or for a conflict with the contents, and then
nothing changes. -/
theorem Reaches.insert_rejects (h : Reaches index contents) (resolve : contents.Resolve load)
    (key : Key) (value : UInt64) :
    ((index.insert load key value).answer = .error (.key .empty) ↔ key = []) ∧
    (∀ size, (index.insert load key value).answer = .error (.key (.tooLong size)) ↔
      Key.maxLength < key.length ∧ size = ⟨key.length, Key.maxLength⟩) ∧
    ((index.insert load key value).answer = .error (.key .notPrefixFree) ↔
      key ≠ [] ∧ key.length ≤ Key.maxLength ∧ contents.Clash key) ∧
    ((∃ old, (index.insert load key value).answer = .ok old) ↔
      key ≠ [] ∧ key.length ≤ Key.maxLength ∧ ¬ contents.Clash key) ∧
    ∀ reason, (index.insert load key value).answer = .error reason →
      index.insert load key value = .unchanged index (.error reason) := by
  have hdecides := (h.holds resolve).insert_decides key value
  rcases Key.check_cases key with ⟨rfl, hcheck⟩ | ⟨hlong, hcheck⟩ | ⟨hne, hle, hcheck⟩
  · obtain ⟨reason, hreason, hdone⟩ := hdecides.resolve_right (by simp [hcheck])
    cases hcheck.symm.trans hreason
    simp [hdone, Outcome.unchanged]
  · obtain ⟨reason, hreason, hdone⟩ := hdecides.resolve_right (by simp [hcheck])
    cases hcheck.symm.trans hreason
    have hne : key ≠ [] := List.ne_nil_of_length_pos (Nat.zero_lt_of_lt hlong)
    simp [hdone, Outcome.unchanged, hlong, hne, Nat.not_le.2 hlong, eq_comm]
  · have hshort : ¬ Key.maxLength < key.length := Nat.not_lt.2 hle
    rcases hdecides.resolve_left (by simp [hcheck]) with ⟨-, hclash, hdone⟩ | ⟨-, hfree, hanswer⟩
    · simp [hdone, Outcome.unchanged, hne, hle, hshort, hclash]
    · simp [hanswer, hne, hle, hshort, hfree]

/-- The beginning of two keys is rejected, whatever the key of the payload is. -/
theorem twins_reject_start :
    twins.insert twinKey (List.replicate 12 97) 1 =
      .unchanged twins (.error (.key .notPrefixFree)) := by
  obtain ⟨-, -, hclash, -, hunchanged⟩ :=
    Reaches.insert_rejects reaches_twins resolve_twins (List.replicate 12 97) 1
  refine hunchanged _ (hclash.2 ⟨by decide, by decide, twinKey 1, by decide, by decide, .inr ?_⟩)
  exact List.prefix_append ..

end AdaptiveRadix
