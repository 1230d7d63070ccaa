import Containment.Canonical
import Containment.Trie.Walk

namespace Containment.Trie

variable {α : Type}

/-! A stored sequence is a subset of the query when its path picks elements of
the query in their order. The search holds with each node the elements of the
query that come after those already picked. -/

/-- A branch whose key the query holds, with the elements after that key. -/
structure Shared (α : Type) where
  branch : Branch α
  remaining : List α
deriving DecidableEq

/-- The branches whose keys occur in an ascending sequence. Both sides ascend, so
the lesser of the two heads has no counterpart on the other side. -/
def sharedWith (order : Order α) : List (Branch α) → List α → List (Shared α)
  | [], _ => []
  | _ :: _, [] => []
  | branch :: branches, element :: remaining =>
      match order branch.key element with
      | .lt => sharedWith order branches (element :: remaining)
      | .gt => sharedWith order (branch :: branches) remaining
      | .eq => { branch, remaining } :: sharedWith order branches remaining
termination_by branches remaining => branches.length + remaining.length

structure SubsetItem (α : Type) where
  node : NodeId
  remaining : List α
deriving DecidableEq

/-- A stored path of the query's own length is the query itself and is left out. -/
def subsetYield (trie : Trie α) (size : Nat) (shared : Shared α) :
    Except Fault (List (List α)) := do
  let node ← trie.node shared.branch.child
  if node.terminal && node.depth < size then
    return [← trie.pathTo shared.branch.child]
  else
    return []

/-- A child is visited if it has children and the query has elements left. -/
def subsetNext (trie : Trie α) (shared : Shared α) :
    Except Fault (List (SubsetItem α)) := do
  let node ← trie.node shared.branch.child
  if shared.remaining.isEmpty || node.isLeaf then
    return []
  else
    return [{ node := shared.branch.child, remaining := shared.remaining }]

/-- The child found last is visited first. -/
def subsetVisit (trie : Trie α) (order : Order α) (size : Nat)
    (item : SubsetItem α) : Except Fault (Visit (SubsetItem α) (List α)) := do
  let node ← trie.node item.node
  let shared := sharedWith order node.branches item.remaining
  let yields ← shared.mapM (trie.subsetYield size)
  let next ← shared.mapM trie.subsetNext
  return { yields := yields.flatten, next := next.reverse.flatten }

def subsetWalk (trie : Trie α) (order : Order α) (query : List α) :
    Except Fault (List (Visited (SubsetItem α) (List α))) :=
  walk (trie.subsetVisit order query.length) trie.nodes.size
    [{ node := root, remaining := query }]

/-- The stored proper subsets of a canonical set. -/
def properSubsets (trie : Trie α) (order : Order α) (query : Canonical α) :
    Except Fault (Findings α) := do
  let visited ← trie.subsetWalk order query.elements
  return Findings.ofVisited visited

end Containment.Trie
