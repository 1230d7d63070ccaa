import Containment.Refusal
import Containment.Tally

namespace Containment

/-! What an index reports while it works. An event is written as its level, its
message and its fields. -/

inductive Event where
  | extended (nodesCreated depth : Nat)
  | added (setSize : Nat) (inserted : Bool)
  | rejected (inputLength : Nat) (refusal : Refusal)
  | lookedUp (inputLength : Nat) (found : Bool)
  | queried (direction : Direction) (inputLength results visited : Nat)
deriving DecidableEq

inductive Level where
  | trace
  | debug
deriving DecidableEq

def Level.name : Level → String
  | .trace => "TRACE"
  | .debug => "DEBUG"

namespace Event

def level : Event → Level
  | .extended _ _ => .trace
  | _ => .debug

def message : Event → String
  | .extended _ _ => "[set-trie] Extended trie"
  | .added _ _ => "[set-trie] Added set"
  | .rejected _ _ => "[set-trie] Rejected add"
  | .lookedUp _ _ => "[set-trie] Lookup"
  | .queried _ _ _ _ => "[set-trie] Containment query"

def flagText : Bool → String
  | true => "true"
  | false => "false"

def fields : Event → List (String × String)
  | .extended nodesCreated depth =>
      [("nodes_created", nodesCreated.repr), ("depth", depth.repr)]
  | .added setSize inserted =>
      [("set_size", setSize.repr), ("inserted", flagText inserted)]
  | .rejected inputLength refusal =>
      [("input_len", inputLength.repr), ("error", refusal.message)]
  | .lookedUp inputLength found =>
      [("input_len", inputLength.repr), ("found", flagText found)]
  | .queried direction inputLength results visited =>
      [("kind", direction.name), ("input_len", inputLength.repr),
        ("results", results.repr), ("nodes_visited", visited.repr)]

def line (event : Event) : String :=
  " ".intercalate
    (event.level.name :: event.message ::
      event.fields.map fun field => field.1 ++ "=" ++ field.2)

end Event

end Containment
