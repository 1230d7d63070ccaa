import Containment.Trie.Basic

namespace Containment.Trie

variable {α : Type}

/-! Insertion walks down from the root, makes the nodes that are missing and marks
the last one. A key that does not ascend is found out where a node would have to
be made for it; the nodes made before that stay. -/

/-- Adds a node below `parent` and a branch to it at the given position. -/
def attach (trie : Trie α) (parent : NodeId) (owner : Node α) (position : Nat)
    (key : α) : Trie α :=
  let branch : Branch α := { key, child := trie.nodes.size }
  let extended := trie.nodes.modify parent fun node =>
    { node with branches := node.branches.insertIdx position branch }
  { trie with nodes := extended.push (owner.below parent key) }

/-- A child that was looked for, and whether it had to be made. -/
structure Arrival where
  node : NodeId
  created : Bool
deriving DecidableEq

/-- Only a child that has to be made is held against the key of its parent. -/
def childOrCreate (trie : Trie α) (order : Order α) (parent : NodeId) (key : α) :
    Except Fault Arrival × Trie α :=
  match trie.node parent with
  | .error fault => (.error fault, trie)
  | .ok owner =>
      match owner.locate order key with
      | .met _ branch => (.ok { node := branch.child, created := false }, trie)
      | .gap position =>
          match (owner.key?.map fun above => order above key).getD .lt with
          | .lt =>
              let fresh := trie.nodes.size
              (.ok { node := fresh, created := true },
                trie.attach parent owner position key)
          | standing => (.error (.notAscending standing), trie)

/-- The node that a walk ended at, and the number of nodes made on the way. -/
structure Reached where
  node : NodeId
  created : Nat
deriving DecidableEq

/-- Follows a path below a node and makes what is missing. -/
def extend (trie : Trie α) (order : Order α) (start : NodeId) :
    List α → Except Fault Reached × Trie α
  | [] => (.ok { node := start, created := 0 }, trie)
  | key :: rest =>
      match trie.childOrCreate order start key with
      | (.error fault, unchanged) => (.error fault, unchanged)
      | (.ok arrival, grown) =>
          let (outcome, extended) := grown.extend order arrival.node rest
          (outcome.map fun reached =>
            { reached with created := reached.created + arrival.created.toNat }, extended)

structure Insertion where
  node : NodeId
  /-- The sequence was not stored before. -/
  inserted : Bool
  created : Nat
deriving DecidableEq

/-- Marks a node as the end of a stored sequence. -/
def store (trie : Trie α) (reached : Reached) :
    Except Fault Insertion × Trie α :=
  match trie.node reached.node with
  | .error fault => (.error fault, trie)
  | .ok node =>
      let insertion : Insertion :=
        { node := reached.node, inserted := !node.terminal, created := reached.created }
      if node.terminal then
        (.ok insertion, trie)
      else
        let nodes := trie.nodes.modify reached.node fun node => { node with terminal := true }
        (.ok insertion, { nodes, stored := trie.stored + 1 })

def insertPath (trie : Trie α) (order : Order α) :
    List α → Except Fault Insertion × Trie α
  | [] => (.error .emptyPath, trie)
  | key :: rest =>
      match trie.extend order root (key :: rest) with
      | (.error fault, extended) => (.error fault, extended)
      | (.ok reached, extended) => extended.store reached

end Containment.Trie
