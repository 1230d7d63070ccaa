import Containment.Trie.Basic

namespace Containment.Trie

variable {α : Type}

/-! Paths are followed downwards by their keys and rebuilt upwards from a node. -/

/-- The end of a path below a node, if the whole path is there. -/
def follow (trie : Trie α) (order : Order α) (start : NodeId) :
    List α → Except Fault (Option NodeId)
  | [] => return some start
  | key :: rest => do
      match ← trie.child order start key with
      | none => return none
      | some child => trie.follow order child rest

def findPath (trie : Trie α) (order : Order α) (path : List α) :
    Except Fault (Option NodeId) :=
  trie.follow order root path

/-- Climbs to the root, putting each key in front of those below it. -/
def climb (trie : Trie α) : Nat → NodeId → List α → Except Fault (List α)
  | 0, _, _ => throw .endless
  | budget + 1, id, below => do
      let node ← trie.node id
      match node.origin with
      | none => return below
      | some origin => trie.climb budget origin.parent (origin.key :: below)

/-- The path that leads to a node. It has fewer keys than there are nodes. -/
def pathTo (trie : Trie α) (id : NodeId) : Except Fault (List α) :=
  trie.climb trie.nodes.size id []

end Containment.Trie
