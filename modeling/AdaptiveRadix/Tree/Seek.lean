/-
Searching a tree: for a key itself, for the smallest key that is not less, or for the
greatest that is not greater. One descent serves all three. It compares the paths it
meets with the search key, and where it leaves the tree the nearest key lies beside the
place where it left.
-/
import AdaptiveRadix.Tree.Path

namespace AdaptiveRadix

/-- How a search for a key treats the bytes of a path that are not stored: `pessimistic` reads them
in a leaf below, `optimistic` skips them and checks the whole key at the leaf it arrives at. -/
inductive Policy where
  | pessimistic
  | optimistic
deriving DecidableEq, Repr

/-- What a search looks for. -/
inductive Aim where
  | exact (policy : Policy)
  /-- The smallest key that is not less. -/
  | ceiling
  /-- The greatest key that is not greater. -/
  | floor
deriving DecidableEq, Repr

/-- How the keys below a node stand to a search key, so far as the node's path tells. -/
inductive PathOrder where
  /-- They agree with it through the path. -/
  | agree
  /-- They agree in the bytes compared, and the rest of the path was not compared. -/
  | skipped
  /-- They are all less. -/
  | below
  /-- They are all greater. -/
  | above
  /-- They go on where it ends. -/
  | keyEnds
deriving DecidableEq, Repr

/-- Compares what is at hand of a path with the rest of a search key; `whole` says that no byte of the
path is missing. -/
def PathOrder.ofBytes (whole : Bool) : List UInt8 → List UInt8 → PathOrder
  | [], _ => if whole then agree else skipped
  | _ :: _, [] => keyEnds
  | a :: path, b :: rest =>
    if a < b then below
    else if b < a then above
    else ofBytes whole path rest

/-- Compares the path of a node with a search key from a depth on. Only an optimistic search for a
key is content with the stored bytes. -/
def Node.comparePath (load : Loader) (node : Node Tree) (key : Key) (depth : Nat) (aim : Aim) :
    PathOrder :=
  let path := if aim = .exact .optimistic then node.path.inline else node.fullPath load depth
  .ofBytes (node.path.length ≤ path.length) path (key.drop depth)

namespace Tree

/-- The answer below a tree all of whose keys are less than the search key. -/
def allLess (tree : Tree) : Aim → Option UInt64
  | .floor => tree.maximum?
  | _ => none

/-- The answer below a tree all of whose keys are greater than the search key. -/
def allGreater (tree : Tree) : Aim → Option UInt64
  | .ceiling => tree.minimum?
  | _ => none

/-- The answer beside a byte, when there is none under it. -/
def beside (node : Node Tree) (byte : UInt8) : Aim → Option UInt64
  | .exact _ => none
  | .ceiling => (node.after? byte).bind fun entry => entry.2.minimum?
  | .floor => (node.before? byte).bind fun entry => entry.2.maximum?

/-- The answer at a leaf. When every byte of the key was compared on the way, the leaf's key is known to
begin with it and is not read. -/
def checkLeaf (load : Loader) (value : UInt64) (key : Key) (depth : Nat) (skipped : Bool) :
    Aim → Option UInt64
  | .exact _ =>
    if depth = key.length ∧ skipped = false then some value
    else
      let start := if skipped then 0 else min depth key.length
      if (load value).length = key.length ∧ (load value).drop start = key.drop start then some value
      else none
  | .ceiling => if key ≤ load value then some value else none
  | .floor => if load value ≤ key then some value else none

/-- Searches a tree whose keys agree with the search key up to a depth, except perhaps in the bytes of
paths that were skipped. -/
def seek (load : Loader) (tree : Tree) (key : Key) (depth : Nat) (skipped : Bool) (aim : Aim) :
    Option UInt64 :=
  match tree with
  | leaf value => checkLeaf load value key depth skipped aim
  | inner node =>
    match node.comparePath load key depth aim with
    | .below => (inner node).allLess aim
    | .above | .keyEnds => (inner node).allGreater aim
    | order =>
      match _h : key[depth + node.path.length]? with
      | none => (inner node).allGreater aim
      | some byte =>
        ((node.find? byte).bind fun child =>
          seek load child key (depth + node.path.length + 1)
            (skipped || order == .skipped) aim) <|>
        beside node byte aim
termination_by key.length - depth
decreasing_by
  have := (List.getElem?_eq_some_iff.1 _h).1
  omega

end Tree

end AdaptiveRadix
