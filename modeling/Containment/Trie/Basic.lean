import Containment.Bisect
import Containment.Fault

namespace Containment

variable {α : Type}

/-! A trie shares the beginnings of the sequences it stores. Its nodes are
numbered in the order in which they were made; the root is the first of them.
A node keeps the branches to its children in ascending order of their keys. -/

abbrev NodeId := Nat

structure Branch (α : Type) where
  key : α
  child : NodeId
deriving DecidableEq

/-- Where a node hangs, and the last element of the path that leads to it. -/
structure Origin (α : Type) where
  key : α
  parent : NodeId
deriving DecidableEq

structure Node (α : Type) where
  /-- Only the root has none. -/
  origin : Option (Origin α)
  /-- The length of the path that leads to the node. -/
  depth : Nat
  branches : List (Branch α)
  /-- The path that leads to the node is a stored sequence. -/
  terminal : Bool
deriving DecidableEq

structure Trie (α : Type) where
  nodes : Array (Node α)
  /-- The number of stored sequences. -/
  stored : Nat
deriving DecidableEq

namespace Node

def root : Node α :=
  { origin := none, depth := 0, branches := [], terminal := false }

/-- A node below `owner`, whose number is `parent`. -/
def below (owner : Node α) (parent : NodeId) (key : α) : Node α :=
  { origin := some { key, parent }
    depth := owner.depth + 1
    branches := []
    terminal := false }

def key? (node : Node α) : Option α :=
  node.origin.map Origin.key

def parent? (node : Node α) : Option NodeId :=
  node.origin.map Origin.parent

def isLeaf (node : Node α) : Bool :=
  node.branches.isEmpty

def children (node : Node α) : List NodeId :=
  node.branches.map Branch.child

/-- The branch under a key, or the place for one, among ascending branches. -/
def locate (order : Order α) (node : Node α) (key : α) : Spot (Branch α) :=
  bisect (fun branch => order branch.key key) node.branches

end Node

namespace Trie

def root : NodeId := 0

def empty : Trie α :=
  { nodes := #[Node.root], stored := 0 }

/-- The root is not counted. -/
def nodeCount (trie : Trie α) : Nat :=
  trie.nodes.size - 1

def node (trie : Trie α) (id : NodeId) : Except Fault (Node α) :=
  match trie.nodes[id]? with
  | some node => .ok node
  | none => .error (.outOfBounds trie.nodes.size id)

def child (trie : Trie α) (order : Order α) (parent : NodeId) (key : α) :
    Except Fault (Option NodeId) := do
  let owner ← trie.node parent
  match owner.locate order key with
  | .met _ branch => return some branch.child
  | .gap _ => return none

end Trie

end Containment
