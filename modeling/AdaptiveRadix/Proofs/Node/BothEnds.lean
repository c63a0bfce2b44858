/-
Reading a node from both ends at once. Any order of calls, at the front and at the back, takes from
the node's children what it would take from their list: each call the first or the last of what
remains, and nothing once nothing remains. So the two ends meet without a child being passed over
or read twice.
-/
import AdaptiveRadix.Proofs.Node.Cursor

namespace AdaptiveRadix

/-- The end of what remains that a call reads. -/
inductive End where
  | front
  | back
deriving DecidableEq, Repr

namespace End

variable {α β : Type}

/-! ## Lists -/

/-- What a call takes from a list, and the rest of the list. -/
def take (l : List β) : End → Option β × List β
  | front => (l.head?, l.tail)
  | back => (l.getLast?, l.dropLast)

/-- What calls take from a list, one after another, and what they leave. -/
def takes (l : List β) : List End → List (Option β) × List β
  | [] => ([], l)
  | e :: ends => ((e.take l).1 :: (takes (e.take l).2 ends).1, (takes (e.take l).2 ends).2)

/-- The answers of the calls at one end. -/
def answersAt (e : End) (ends : List End) (answers : List (Option β)) : List β :=
  (ends.zip answers).filterMap fun call => if call.1 = e then call.2 else none

theorem length_takes (ends : List End) (l : List β) :
    (takes l ends).2.length = l.length - ends.length := by
  induction ends generalizing l with
  | nil => rfl
  | cons e ends ih =>
    have hlen : (e.take l).2.length = l.length - 1 := by
      cases e with
      | front => exact List.length_tail
      | back => exact List.length_dropLast
    rw [takes, ih, hlen, List.length_cons]
    omega

/-- A call is without an answer from the time on when all has been taken, and not before. -/
theorem getElem?_takes_eq_none_iff (ends : List End) (l : List β) (k : Nat) :
    (takes l ends).1[k]? = some none ↔ k < ends.length ∧ l.length ≤ k := by
  induction ends generalizing l k with
  | nil => simp [takes]
  | cons e ends ih =>
    have htake : ((e.take l).1 = none ↔ l = []) ∧ (e.take l).2.length = l.length - 1 := by
      cases e with
      | front => exact ⟨List.head?_eq_none_iff, List.length_tail⟩
      | back => exact ⟨List.getLast?_eq_none_iff, List.length_dropLast⟩
    rw [takes, List.length_cons]
    cases k with
    | zero =>
      rw [List.getElem?_cons_zero, Option.some.injEq, htake.1, Nat.le_zero, List.length_eq_zero_iff]
      exact (and_iff_right (Nat.succ_pos _)).symm
    | succ k =>
      rw [List.getElem?_cons_succ, ih, htake.2]
      omega

theorem answersAt_cons (e first : End) (ends : List End) (answer : Option β)
    (answers : List (Option β)) :
    answersAt e (first :: ends) (answer :: answers) =
      (if first = e then answer else none).toList ++ answersAt e ends answers := by
  rw [answersAt, List.zip_cons_cons, List.filterMap_cons]
  split
  · next hn => rw [hn, Option.toList_none, List.nil_append, answersAt]
  · next hs => rw [hs, Option.toList_some, List.singleton_append, answersAt]

/-- What was taken at the two ends lies around what remains, nothing twice and nothing missing. -/
theorem append_takes (ends : List End) (l : List β) :
    l = answersAt front ends (takes l ends).1 ++ (takes l ends).2 ++
      (answersAt back ends (takes l ends).1).reverse := by
  induction ends generalizing l with
  | nil => simp [takes, answersAt]
  | cons e ends ih =>
    rw [takes, answersAt_cons, answersAt_cons]
    cases e with
    | front =>
      calc l = l.head?.toList ++ l.tail := by cases l <;> rfl
        _ = l.head?.toList ++ _ := congrArg _ (ih l.tail)
        _ = _ := by simp [take]
    | back =>
      calc l = l.dropLast ++ l.getLast?.toList := by
            rcases List.eq_nil_or_concat l with rfl | ⟨l, x, rfl⟩ <;> simp
        _ = _ ++ l.getLast?.toList := congrArg (· ++ l.getLast?.toList) (ih l.dropLast)
        _ = _ := by cases hlast : l.getLast? <;> simp [take, hlast]

/-! ## Cursors -/

/-- Reads a cursor at one end. -/
def read (cursor : Cursor α) : End → Option (UInt8 × α) × Cursor α
  | front => cursor.next
  | back => cursor.nextBack

/-- The answers of calls, one after another, and the cursor that they leave. -/
def reads (cursor : Cursor α) : List End → List (Option (UInt8 × α)) × Cursor α
  | [] => ([], cursor)
  | e :: ends => ((e.read cursor).1 :: (reads (e.read cursor).2 ends).1,
      (reads (e.read cursor).2 ends).2)

theorem read_eq {cursor : Cursor α} (h : cursor.Full) (e : End) :
    (e.read cursor).1 = (e.take cursor.toList).1 ∧
      (e.read cursor).2.toList = (e.take cursor.toList).2 ∧ (e.read cursor).2.Full := by
  cases e with
  | front => exact h.next
  | back => exact h.nextBack

/-- Calls read what they would take from the list of what a cursor has still to read. -/
theorem reads_eq {cursor : Cursor α} (h : cursor.Full) (ends : List End) :
    (reads cursor ends).1 = (takes cursor.toList ends).1 := by
  induction ends generalizing cursor with
  | nil => rfl
  | cons e ends ih =>
    obtain ⟨hanswer, hrest, hfull⟩ := read_eq h e
    rw [reads, takes, hanswer, ih hfull, hrest]

end End

namespace Node

variable {α : Type} {node : Node α}

/-- Whatever the calls and their order, each reads the first or the last of what remains of the node's
children in ascending order. There is an answer as long as something remains; and what was read at
the front, what remains, and what was read at the back make up the children, each once. -/
theorem read_from_both_ends (h : node.layout.Valid) :
    node.entries.Pairwise (·.1 < ·.1) ∧
    (∀ byte child, (byte, child) ∈ node.entries ↔ node.find? byte = some child) ∧
    ∀ ends,
      let answers := (End.reads (.ofNode node) ends).1
      answers = (End.takes node.entries ends).1 ∧
      (∀ k, answers[k]? = some none ↔ k < ends.length ∧ node.entries.length ≤ k) ∧
      ∃ rest, rest.length = node.entries.length - ends.length ∧
        node.entries =
          End.answersAt .front ends answers ++ rest ++ (End.answersAt .back ends answers).reverse := by
  refine ⟨h.ascending, fun _ _ => h.mem_entries, fun ends => ?_⟩
  intro answers
  obtain ⟨hfull, hlist⟩ := Cursor.full_ofNode h
  have heq : answers = (End.takes node.entries ends).1 := by
    rw [← hlist]
    exact End.reads_eq hfull ends
  rw [heq]
  exact ⟨rfl, End.getElem?_takes_eq_none_iff ends _, _, End.length_takes ends _,
    End.append_takes ends _⟩

/-- Three children under the first byte, the last and one between, found by asking for every byte. -/
def spread : Node Nat :=
  ⟨.ofBytes [], .ofEntries .fortyEight [(0, 1), (7, 2), (255, 3)]⟩

theorem spread_read_from_both_ends :
    spread.layout.Valid ∧
      (End.reads (.ofNode spread) [.back, .front, .back, .front, .back]).1 =
        [some (255, 3), some (0, 1), some (7, 2), none, none] := by
  have hasc : [(0, 1), (7, 2), (255, 3)].Pairwise fun a b : UInt8 × Nat => a.1 < b.1 := by decide
  have hroom : 3 ≤ Kind.fortyEight.capacity := by decide
  have hvalid : spread.layout.Valid := Layout.valid_ofEntries hasc hroom
  have hentries : spread.entries = [(0, 1), (7, 2), (255, 3)] :=
    Layout.entries_ofEntries hasc hroom
  obtain ⟨-, -, hreads⟩ := read_from_both_ends hvalid
  refine ⟨hvalid, (hreads _).1.trans ?_⟩
  rw [hentries]
  rfl

end Node

end AdaptiveRadix
