/-
The four kinds of inner node, by how many children they have room for, and the number of
children at which a node becomes one of the next smaller kind. That number lies below the
room of the smaller kind, so a node that has just shrunk can take a child again.
-/
namespace AdaptiveRadix

inductive Kind where
  | four
  | sixteen
  | fortyEight
  | full
deriving DecidableEq, Repr

namespace Kind

def capacity : Kind → Nat
  | .four => 4
  | .sixteen => 16
  | .fortyEight => 48
  | .full => 256

/-- A node of this kind with that many children, or fewer, is to become one of the next smaller
kind. -/
def shrinkAt? : Kind → Option Nat
  | .four => none
  | .sixteen => some 3
  | .fortyEight => some 12
  | .full => some 37

def larger? : Kind → Option Kind
  | .four => some .sixteen
  | .sixteen => some .fortyEight
  | .fortyEight => some .full
  | .full => none

def smaller? : Kind → Option Kind
  | .four => none
  | .sixteen => some .four
  | .fortyEight => some .sixteen
  | .full => some .fortyEight

def name : Kind → String
  | .four => "Node4"
  | .sixteen => "Node16"
  | .fortyEight => "Node48"
  | .full => "Node256"

end Kind

/-- A child was to be added to a node without room for it. -/
structure NoRoom where
  kind : Kind
deriving DecidableEq, Repr

def NoRoom.message (e : NoRoom) : String :=
  s!"{e.kind.name} is full, should grow first"

end AdaptiveRadix
