import Containment.Config
import Containment.Event
import Containment.Trie.Audit
import Containment.Trie.Dump
import Containment.Trie.Insertion
import Containment.Trie.Subsets
import Containment.Trie.Supersets

namespace Containment

variable {α β : Type}

/-! An index stores finite sets and answers which it holds, and which of them are
proper subsets or proper supersets of a given set. Sets are given as lists of
elements in any order and with any repetitions. -/

structure Index (α : Type) where
  order : Order α
  config : Config
  trie : Trie α
  recorder : Recorder

/-! What an operation came to: the trie it leaves, its answer, the events it
reports and what it adds to the counters. An operation that breaks off reports
and counts nothing. -/

structure Outcome (α β : Type) where
  trie : Trie α
  answer : Except Failure β
  events : List Event
  activity : Option Activity

namespace Outcome

def broken (trie : Trie α) (fault : Fault) : Outcome α β :=
  { trie, answer := .error (.broken fault), events := [], activity := none }

/-- A look at a trie, and what to report and to count of its result. -/
def ofLook {γ : Type} (trie : Trie α) (result : Except Fault γ) (answer : γ → β)
    (event : γ → Event) (activity : γ → Activity) : Outcome α β :=
  match result with
  | .error fault => broken trie fault
  | .ok found =>
      { trie
        answer := .ok (answer found)
        events := [event found]
        activity := some (activity found) }

end Outcome

namespace Index

/-- An empty index whose recorder keeps nothing. -/
def build (order : Order α) (config : Config) : Index α :=
  { order, config, trie := .empty, recorder := .silent }

def ofOrder (order : Order α) : Index α :=
  build order .default

def ofConfig (order : Order α) (config : Config) : Except Refusal (Index α) := do
  config.validate
  return build order config

def withRecorder (index : Index α) (recorder : Recorder) : Index α :=
  { index with recorder }

/-- The nodes stay as they are, whatever the new order makes of them. -/
def withOrder (index : Index α) (order : Order α) : Index α :=
  { index with order }

/-- The canonical form of a set that may be stored. -/
def admissible (index : Index α) (elements : List α) : Except Refusal (Canonical α) := do
  let set ← Canonical.forInsertion index.order elements
  if index.config.maxSetSize.toNat < set.size then
    throw (.setTooLarge set.size index.config.maxSetSize.toNat)
  return set

/-! The four operations, without the recorder. -/

def extensionEvents (set : Canonical α) (insertion : Trie.Insertion) : List Event :=
  if insertion.created = 0 then []
  else [.extended insertion.created set.size]

def addition (index : Index α) (elements : List α) : Outcome α Bool :=
  match index.admissible elements with
  | .error refusal =>
      { trie := index.trie
        answer := .error (.refused refusal)
        events := [.rejected elements.length refusal]
        activity := some .rejected }
  | .ok set =>
      match index.trie.insertPath index.order set.elements with
      | (.error fault, trie) => .broken trie fault
      | (.ok insertion, trie) =>
          { trie
            answer := .ok insertion.inserted
            events := extensionEvents set insertion ++ [.added set.size insertion.inserted]
            activity := some (.added insertion.inserted insertion.created) }

def holds (index : Index α) (elements : List α) : Except Fault Bool :=
  match Canonical.ofList? index.order elements with
  | none => return false
  | some set => do
      match ← index.trie.findPath index.order set.elements with
      | none => return false
      | some id => return (← index.trie.node id).terminal

def lookup (index : Index α) (elements : List α) : Outcome α Bool :=
  .ofLook index.trie (index.holds elements) id
    (.lookedUp elements.length) .lookedUp

def search (index : Index α) (direction : Direction) (elements : List α) :
    Except Fault (Trie.Findings α) :=
  match Canonical.ofList? index.order elements with
  | none => return .none
  | some set =>
      match direction with
      | .subsets => index.trie.properSubsets index.order set
      | .supersets => index.trie.properSupersets index.order set

def query (index : Index α) (direction : Direction) (elements : List α) :
    Outcome α (List (List α)) :=
  .ofLook index.trie (index.search direction elements) Trie.Findings.sets
    (fun findings =>
      .queried direction elements.length findings.sets.length findings.visited)
    (fun findings => .queried direction findings.sets.length findings.visited)

/-! The operations as a caller sees them. -/

structure Performed (α β : Type) where
  index : Index α
  answer : Except Failure β
  events : List Event

/-- Keeps the trie of an outcome and counts its activity. -/
def settle (index : Index α) (took : Elapsed) (outcome : Outcome α β) :
    Performed α β :=
  { index :=
      { index with
        trie := outcome.trie
        recorder :=
          match outcome.activity with
          | none => index.recorder
          | some activity => index.recorder.record took activity }
    answer := outcome.answer
    events := outcome.events }

/-- Stores a set. The answer is whether it was not stored before. -/
def add (index : Index α) (took : Elapsed) (elements : List α) : Performed α Bool :=
  index.settle took (index.addition elements)

/-- Whether exactly this set is stored. The empty set never is. -/
def contains (index : Index α) (took : Elapsed) (elements : List α) :
    Performed α Bool :=
  index.settle took (index.lookup elements)

/-- The stored proper subsets of a set; none of the empty set. -/
def subsetsOf (index : Index α) (took : Elapsed) (elements : List α) :
    Performed α (List (List α)) :=
  index.settle took (index.query .subsets elements)

/-- The stored proper supersets of a set; none of the empty set. -/
def supersetsOf (index : Index α) (took : Elapsed) (elements : List α) :
    Performed α (List (List α)) :=
  index.settle took (index.query .supersets elements)

/-- Adds one set after another, each taking the same time. The number is that of
the sets that were not stored before; a refused one is passed over. -/
def addAll (index : Index α) (took : Elapsed) : List (List α) → Index α × Nat
  | [] => (index, 0)
  | elements :: rest =>
      let performed := index.add took elements
      let (final, stored) := performed.index.addAll took rest
      match performed.answer with
      | .ok true => (final, stored + 1)
      | _ => (final, stored)

/-! Looking at an index without a trace. -/

def size (index : Index α) : Nat :=
  index.trie.stored

def isEmpty (index : Index α) : Bool :=
  index.size == 0

def nodeCount (index : Index α) : Nat :=
  index.trie.nodeCount

def sets (index : Index α) : Except Fault (List (List α)) :=
  index.trie.sequences

def check (index : Index α) : Except Fault Unit :=
  index.trie.audit index.order

def dump (index : Index α) (spell : α → String) : Except Fault String :=
  index.trie.dump spell

def outline (index : Index α) : Outline :=
  .record "SetTrie"
    [("sets", .number index.size), ("nodes", .number index.nodeCount),
      ("config", index.config.outline)]

end Index

end Containment
