/-
Inserting a key. The descent ends in one of four ways: at a leaf, whose payload is
replaced or whose place is taken by a fork; inside a path, which is cut in two; at a
node that has no child under the next byte and gets one; or in a rejection, because one
of two keys would go on where the other ends.
-/
import AdaptiveRadix.Event
import AdaptiveRadix.Node.Resize
import AdaptiveRadix.Tree.Path

namespace AdaptiveRadix

/-- Why a key was not inserted. Only the first reason is the key's. -/
inductive InsertError where
  | key (reason : KeyError)
  | noRoom (reason : NoRoom)
  /-- The byte where a path was to be cut could not be read, because the key that is to hold it has
  become shorter than the path. -/
  | lostPath (length index : Nat)
deriving DecidableEq, Repr

def InsertError.message : InsertError → String
  | .key reason => reason.message
  | .noRoom reason => reason.message
  | .lostPath length index =>
    s!"index out of bounds: the len is {length} but the index is {index}"

namespace Tree

/-- The tree after an attempt to insert, and the payload that was replaced if there was one. -/
abbrev Insertion := Outcome Tree Event (Except InsertError (Option UInt64))

/-- Nothing was inserted, and the tree stays as it is. -/
def reject (tree : Tree) (reason : InsertError) : Insertion :=
  .unchanged tree (.error reason)

/-- Puts a fork in the place of a tree. -/
def branchOff (tree : Tree) (path : List UInt8) (oldByte : UInt8) (old : Tree) (newByte : UInt8)
    (value : UInt64) (events : List Event) : Insertion :=
  match Node.fork (.ofBytes path) oldByte old newByte (leaf value) with
  | .ok node => ⟨inner node, .ok none, events⟩
  | .error reason => reject tree (.noRoom reason)

/-- Inserts at a leaf, which holds the key itself or one that agrees with it up to a depth. -/
def insertAtLeaf (load : Loader) (existing : UInt64) (key : Key) (depth : Nat) (value : UInt64) :
    Insertion :=
  if load existing = key then ⟨leaf value, .ok (some existing), []⟩
  else
    let common := Key.commonLength ((load existing).drop depth) (key.drop depth)
    match (load existing)[depth + common]?, key[depth + common]? with
    | some oldByte, some newByte =>
      branchOff (leaf existing) ((key.drop depth).take common) oldByte (leaf existing) newByte value
        []
    | _, _ => reject (leaf existing) (.key .notPrefixFree)

/-- Inserts above a node whose path the key leaves after `matched` bytes: the path is cut there. -/
def insertInPath (node : Node Tree) (path : List UInt8) (matched : Nat) (key : Key) (depth : Nat)
    (value : UInt64) : Insertion :=
  match key[depth + matched]?, path[matched]? with
  | none, _ => reject (inner node) (.key .notPrefixFree)
  | some _, none => reject (inner node) (.lostPath path.length matched)
  | some newByte, some oldByte =>
    branchOff (inner node) (path.take matched) oldByte
      (inner { node with path := .ofBytes (path.drop (matched + 1)) }) newByte value
      [.split node.path.length matched depth]

/-- Inserts a leaf under a byte that has no child. -/
def insertInNode (node : Node Tree) (byte : UInt8) (value : UInt64) : Insertion :=
  match node.add byte (leaf value) with
  | .ok (node, events) => ⟨inner node, .ok none, events⟩
  | .error reason => reject (inner node) (.noRoom reason)

/-- Inserts a key into a tree whose keys agree with it up to a depth. -/
def insertAt (load : Loader) (tree : Tree) (key : Key) (depth : Nat) (value : UInt64) :
    Insertion :=
  match tree with
  | leaf existing => insertAtLeaf load existing key depth value
  | inner node =>
    let path := node.fullPath load depth
    let matched := Key.commonLength path (key.drop depth)
    if matched < node.path.length then insertInPath node path matched key depth value
    else match _h : key[depth + node.path.length]? with
      | none => reject (inner node) (.key .notPrefixFree)
      | some byte =>
        match node.find? byte with
        | none => insertInNode node byte value
        | some child =>
          (insertAt load child key (depth + node.path.length + 1) value).within fun child =>
            inner (node.replace byte child)
termination_by key.length - depth
decreasing_by
  have := (List.getElem?_eq_some_iff.1 _h).1
  omega

end Tree

end AdaptiveRadix
