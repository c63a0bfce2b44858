/-
The dictionary: strings with ids of their own. A store keeps the strings, one index finds
the id of a string, and another the ids in use. The first index reads its keys in the
store, so each string is kept once.
-/
import AdaptiveRadix.Index
import AdaptiveRadix.Store

namespace AdaptiveRadix

/-- What a dictionary is set up with: its first id, and how its indexes search. -/
structure Config where
  firstId : UInt64 := 1
  policy : Policy := .optimistic
deriving DecidableEq, Repr

structure Dictionary where
  config : Config
  store : Store
  byString : Index
  byId : Index

/-- Why a string was not taken in. -/
inductive DictionaryError where
  | key (reason : InsertError)
  | unknownId (id : UInt64)
  | idsExhausted
  | unsorted (position : Nat)
  | notEmpty
deriving DecidableEq, Repr

def DictionaryError.message : DictionaryError → String
  | .key reason => reason.message
  | .unknownId id => s!"unknown id {id}"
  | .idsExhausted => "no surrogate ids left to assign"
  | .unsorted position => s!"bulk load input is not strictly ascending at position {position}"
  | .notEmpty => "bulk load requires an empty dictionary"

/-- What an operation on a dictionary reports. -/
inductive Notice where
  | index (event : Event)
  | rejected (length : Nat) (reason : KeyError)
  | inserted (count fresh : Nat)
  | loaded (count : Nat) (first last : UInt64)
  | retired (id : UInt64)
deriving DecidableEq, Repr

namespace Notice

def level : Notice → Level
  | .index event => event.level
  | .rejected .. => .warn
  | .inserted .. | .loaded .. | .retired .. => .debug

def text : Notice → String
  | .index event => event.text
  | .rejected length reason => s!"rejecting string of {length} bytes: {reason.message}"
  | .inserted count fresh => s!"bulk insert of {count} strings, {fresh} new"
  | .loaded count first last => s!"bulk loaded {count} strings as ids {first}..={last}"
  | .retired id => s!"retired id {id}"

end Notice

/-- The id of a string that was to be added, and whether the string is new with it. -/
inductive Added where
  | fresh (id : UInt64)
  | known (id : UInt64)
deriving DecidableEq, Repr

namespace Added

def id : Added → UInt64
  | .fresh id => id
  | .known id => id

def isFresh : Added → Bool
  | .fresh _ => true
  | .known _ => false

end Added

namespace Dictionary

/-- The dictionary after an operation, with the operation's answer. -/
abbrev Change (α : Type) := Outcome Dictionary Notice α

/-- The same for an operation that may fail. -/
abbrev Attempt (α : Type) := Change (Except DictionaryError α)

def empty (config : Config) : Dictionary where
  config
  store := .empty config.firstId
  byString := .empty config.policy
  byId := .empty config.policy

/-- The key under which an id is indexed. The payload of such a key is the id itself. -/
def idKey (id : UInt64) : Key :=
  Key.ofUInt64 id

/-! ## Searches -/

def length (dict : Dictionary) : Nat :=
  dict.byString.length

def isEmpty (dict : Dictionary) : Bool :=
  dict.byString.isEmpty

/-- The id under an encoded string. -/
def idOf? (dict : Dictionary) (key : Key) : Option UInt64 :=
  dict.byString.lookup dict.store.load key

def lookupId? (dict : Dictionary) (s : List UInt8) : Option UInt64 :=
  (Key.encode s).toOption.bind dict.idOf?

def contains (dict : Dictionary) (s : List UInt8) : Bool :=
  (dict.lookupId? s).isSome

def lookupString? (dict : Dictionary) (id : UInt64) : Option (List UInt8) :=
  (dict.byId.lookup idKey (idKey id)).bind dict.store.get?

/-- The ids of the first and the last string that begin as given. -/
def rangeStartingWith? (dict : Dictionary) (start : List UInt8) : Option (UInt64 × UInt64) := do
  let below ← dict.byString.subtree? dict.store.load start
  return (← below.minimum?, ← below.maximum?)

/-- The ids of the strings that begin as given, in the order of the strings. -/
def idsStartingWith (dict : Dictionary) (start : List UInt8) : List UInt64 :=
  (dict.byString.subtree? dict.store.load start).elim [] Tree.payloads

def minId? (dict : Dictionary) : Option UInt64 :=
  dict.byId.minimum?

def maxId? (dict : Dictionary) : Option UInt64 :=
  dict.byId.maximum?

/-- The strings with their ids, in the order of the strings. -/
def toList (dict : Dictionary) : List (UInt64 × List UInt8) :=
  dict.byString.payloads.filterMap fun id => (dict.store.get? id).map (id, ·)

/-- The ids in use, in ascending order. -/
def ids (dict : Dictionary) : List UInt64 :=
  dict.byId.payloads

/-! ## Reports

Of what a dictionary takes up in memory only the strings are counted, and whether there are nodes. -/

/-- Of the index by string. -/
def stats (dict : Dictionary) : Stats :=
  dict.byString.stats

/-- Whether an index has come to need a node. -/
def hasNodes (dict : Dictionary) : Bool :=
  0 < dict.byString.stats.nodes + dict.byId.stats.nodes

/-- The number of bytes in all strings, removed ones included. -/
def keyBytes (dict : Dictionary) : Nat :=
  dict.store.keyBytes

end Dictionary

/-- What can be said against a dictionary: against one of its indexes, or against their agreement. -/
inductive DictionaryIssue where
  | byString (issue : Issue)
  | byId (issue : Issue)
  | lengths (strings ids stored : Nat)
  | notById (id : UInt64)
deriving DecidableEq, Repr

def DictionaryIssue.message : DictionaryIssue → String
  | .byString issue => s!"reverse: {issue.message}"
  | .byId issue => s!"forward: {issue.message}"
  | .lengths strings ids stored => s!"{strings} strings, {ids} live ids, {stored} stored strings"
  | .notById id => s!"id {id} is indexed by string but not by id"

def Dictionary.issues (dict : Dictionary) : List DictionaryIssue :=
  (dict.byString.issues dict.store.load).map .byString ++
    (dict.byId.issues idKey).map .byId ++
    (if dict.byId.length = dict.byString.length ∧ dict.store.length = dict.byString.length then []
      else [.lengths dict.byString.length dict.byId.length dict.store.length]) ++
    (dict.byString.payloads.filter fun id => (dict.byId.lookup idKey (idKey id)).isNone).map .notById

end AdaptiveRadix
