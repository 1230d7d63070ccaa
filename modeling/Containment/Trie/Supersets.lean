import Containment.Canonical
import Containment.Trie.Walk

namespace Containment.Trie

variable {α : Type}

/-! A stored sequence is a superset of the query when the query picks elements of
its path in their order. The search holds with each node the elements of the
query that the path to it does not have yet. -/

structure SupersetItem (α : Type) where
  node : NodeId
  required : List α
deriving DecidableEq

/-- A path ascends, so below a key above the next required element that element
cannot come any more. -/
def promising (order : Order α) (node : Node α) (next : α) : List (Branch α) :=
  node.branches.take
    (partitionPoint (fun branch => order branch.key next != .gt) node.branches)

def supersetNext (order : Order α) (next : α) (later : List α) (branch : Branch α) :
    SupersetItem α :=
  if order.equivalent branch.key next then
    { node := branch.child, required := later }
  else
    { node := branch.child, required := next :: later }

/-- Once nothing is required the whole subtree qualifies, without the query
itself, and is collected in one visit. -/
def supersetVisit (trie : Trie α) (order : Order α) (size : Nat)
    (item : SupersetItem α) : Except Fault (Visit (SupersetItem α) (List α)) :=
  match item.required with
  | [] => do
      return { yields := ← trie.collect item.node size, next := [] }
  | next :: later => do
      let node ← trie.node item.node
      return { yields := []
               next := (promising order node next).map (supersetNext order next later) }

def supersetWalk (trie : Trie α) (order : Order α) (query : List α) :
    Except Fault (List (Visited (SupersetItem α) (List α))) :=
  walk (trie.supersetVisit order query.length) trie.nodes.size
    [{ node := root, required := query }]

/-- The stored proper supersets of a canonical set. -/
def properSupersets (trie : Trie α) (order : Order α) (query : Canonical α) :
    Except Fault (Findings α) := do
  let visited ← trie.supersetWalk order query.elements
  return Findings.ofVisited visited

end Containment.Trie
