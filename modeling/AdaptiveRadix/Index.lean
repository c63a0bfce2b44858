/-
The index: a tree that may be empty, the number of its keys, and the policy of its
searches. Keys are not kept; every operation is given the loader that rebuilds them, which
is to give each payload in the index the key it was inserted under.
-/
import AdaptiveRadix.Tree.Erase
import AdaptiveRadix.Tree.Insert
import AdaptiveRadix.Tree.Integrity
import AdaptiveRadix.Tree.Seek
import AdaptiveRadix.Tree.Stats
import AdaptiveRadix.Tree.Subtree
import AdaptiveRadix.Tree.Text
import AdaptiveRadix.Tree.Walk

namespace AdaptiveRadix

def Policy.name : Policy → String
  | .pessimistic => "Pessimistic"
  | .optimistic => "Optimistic"

structure Index where
  root : Option Tree
  length : Nat
  policy : Policy

namespace Index

def empty (policy : Policy) : Index :=
  ⟨none, 0, policy⟩

def isEmpty (index : Index) : Bool :=
  index.root.isNone

def clear (index : Index) : Index :=
  empty index.policy

/-! ## Changes -/

/-- Puts a payload under a key and answers the one that it replaces. A rejected key changes nothing. -/
def insert (load : Loader) (index : Index) (key : Key) (value : UInt64) :
    Outcome Index Event (Except InsertError (Option UInt64)) :=
  match Key.check key, index.root with
  | .error reason, _ => .unchanged index (.error (.key reason))
  | .ok (), none =>
    ⟨{ index with root := some (.leaf value), length := index.length + 1 }, .ok none, []⟩
  | .ok (), some root =>
    let done := root.insertAt load key 0 value
    let length := match done.answer with
      | .ok none => index.length + 1
      | _ => index.length
    done.within fun root => { index with root := some root, length }

/-- Takes a key out and answers its payload. A key that is not in the index changes nothing. -/
def erase (load : Loader) (index : Index) (key : Key) : Outcome Index Event (Option UInt64) :=
  if key.isEmpty then .unchanged index none
  else match index.root with
    | none => .unchanged index none
    | some (.leaf value) =>
      if load value = key then
        ⟨{ index with root := none, length := index.length - 1 }, some value, []⟩
      else .unchanged index none
    | some (.inner node) =>
      let done := (Tree.inner node).eraseAt load key 0
      let length := if done.answer.isSome then index.length - 1 else index.length
      done.within fun root => { index with root := some root, length }

/-! ## Searches -/

/-- Every key is greater than the empty one, so that only its ceiling has an answer. -/
def seek (load : Loader) (index : Index) (key : Key) (aim : Aim) : Option UInt64 :=
  index.root.bind fun root =>
    if key.isEmpty then root.allGreater aim else root.seek load key 0 false aim

def lookupWith (load : Loader) (index : Index) (key : Key) (policy : Policy) : Option UInt64 :=
  index.seek load key (.exact policy)

def lookup (load : Loader) (index : Index) (key : Key) : Option UInt64 :=
  index.lookupWith load key index.policy

def contains (load : Loader) (index : Index) (key : Key) : Bool :=
  (index.lookup load key).isSome

/-- The payload of the smallest key that is not less. -/
def ceiling (load : Loader) (index : Index) (key : Key) : Option UInt64 :=
  index.seek load key .ceiling

/-- The payload of the greatest key that is not greater. -/
def floor (load : Loader) (index : Index) (key : Key) : Option UInt64 :=
  index.seek load key .floor

def minimum? (index : Index) : Option UInt64 :=
  index.root.bind Tree.minimum?

def maximum? (index : Index) : Option UInt64 :=
  index.root.bind Tree.maximum?

/-- The tree of the keys with a given beginning, if there are any. -/
def subtree? (load : Loader) (index : Index) (start : Key) : Option Tree :=
  index.root.bind fun root => root.subtree? load start

/-- The payloads in the order of their keys. -/
def payloads (index : Index) : List UInt64 :=
  index.root.elim [] Tree.payloads

/-! ## Reports -/

def stats (index : Index) : Stats :=
  index.root.elim .zero Tree.stats

/-- All the index has to say against itself and the loader. -/
def issues (load : Loader) (index : Index) : List Issue :=
  index.root.elim [] (fun root => root.issuesAt load 0 []) ++
    (if index.stats.leaves = index.length then []
      else [.leafCount index.stats.leaves index.length]) ++
    orderIssues load index.payloads

/-- The tree with a line for each node and leaf. -/
def dump (index : Index) : String :=
  index.root.elim "(empty)\n" fun root => root.dump 0

/-- The lines of the tree between a heading and a closing line. -/
def report (index : Index) : String :=
  s!"=== ART Debug ===\nSize: {index.length}\n" ++ index.dump ++ "=================\n"

/-- The index in one line. -/
def text (index : Index) : String :=
  let root := index.root.elim "None" fun root => s!"Some({root.text})"
  s!"ArtTree \x7b len: {index.length}, " ++
    s!"options: Options \x7b prefix_match: {index.policy.name} \x7d, root: {root} \x7d"

end Index

end AdaptiveRadix
