/-
What a change to the tree reports beside its answer, and the form every operation's
outcome has: the state it leaves, its answer, and what it reported, oldest first.
-/
import AdaptiveRadix.Node.Kind
import AdaptiveRadix.Text.Quoted

namespace AdaptiveRadix

inductive Level where
  | trace
  | debug
  | warn
deriving DecidableEq, Repr

def Level.name : Level → String
  | .trace => "TRACE"
  | .debug => "DEBUG"
  | .warn => "WARN"

/-- A change to the shape of a tree. -/
inductive Event where
  | grew (old new : Kind) (children : Nat)
  | shrank (old new : Kind) (children : Nat)
  /-- A path of that length was cut where a new key leaves it. -/
  | split (length matched depth : Nat)
  /-- A node was replaced by its only child. -/
  | collapsed (byte : UInt8)
deriving DecidableEq, Repr

namespace Event

def level (_ : Event) : Level :=
  .trace

def text : Event → String
  | .grew old new children => s!"grow {old.name} -> {new.name} ({children} children)"
  | .shrank old new children => s!"shrink {old.name} -> {new.name} ({children} children)"
  | .split length matched depth =>
    s!"split path of {length} bytes after {matched} at depth {depth}"
  | .collapsed byte => s!"collapse Node4 into its only child {Text.hexadecimalByte byte}"

end Event

/-- What an operation leaves behind. The state is the one after the operation also when its answer
is an error. -/
structure Outcome (σ ε α : Type) where
  state : σ
  answer : α
  events : List ε

namespace Outcome

/-- An answer that changes nothing and reports nothing. -/
def unchanged {σ ε α : Type} (state : σ) (answer : α) : Outcome σ ε α :=
  ⟨state, answer, []⟩

/-- The same outcome for a state that holds the one it was for. -/
def within {σ τ ε α : Type} (outcome : Outcome σ ε α) (f : σ → τ) : Outcome τ ε α :=
  ⟨f outcome.state, outcome.answer, outcome.events⟩

/-- The same outcome with another answer. -/
def map {σ ε α β : Type} (outcome : Outcome σ ε α) (f : α → β) : Outcome σ ε β :=
  ⟨outcome.state, f outcome.answer, outcome.events⟩

/-- Goes on from where an operation has succeeded. After an error the state stays as the operation
has left it. -/
def andThen {σ ε κ α β : Type} (outcome : Outcome σ ε (Except κ α))
    (f : σ → α → Outcome σ ε (Except κ β)) : Outcome σ ε (Except κ β) :=
  match outcome.answer with
  | .error reason => ⟨outcome.state, .error reason, outcome.events⟩
  | .ok answer =>
    let rest := f outcome.state answer
    ⟨rest.state, rest.answer, outcome.events ++ rest.events⟩

end Outcome

end AdaptiveRadix
