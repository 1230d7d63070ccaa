import Containment.Trie.Basic

namespace Containment.Trie

variable {α : Type}

/-! An audit holds the whole trie against an order, with looks at neighbours only.
Each part reports the first node, in the order of the numbers, that is amiss. -/

/-- The root, and whatever hangs on it, has no key above to stay over. -/
def ascendsAt (trie : Trie α) (order : Order α) (node : Node α) :
    Except Fault Bool :=
  match node.origin with
  | none => return true
  | some origin => do
      let parent ← trie.node origin.parent
      return (parent.key?.map fun above => order above origin.key == .lt).getD true

/-- A branch leads to a node that hangs on the owner under an equivalent key. -/
def linked (trie : Trie α) (order : Order α) (owner : NodeId) (branch : Branch α) :
    Except Fault Bool := do
  let child ← trie.node branch.child
  return (child.origin.map fun origin =>
    origin.parent == owner && order.equivalent origin.key branch.key).getD false

def branchesSoundAt (trie : Trie α) (order : Order α) (id : NodeId) (node : Node α) :
    Except Fault Bool := do
  let links ← node.branches.mapM (trie.linked order id)
  return order.ascending (node.branches.map Branch.key) && links.all fun link => link

/-- The number of the first node that fails a test. -/
def firstFailing (test : NodeId → Node α → Except Fault Bool) :
    NodeId → List (Node α) → Except Fault (Option NodeId)
  | _, [] => return none
  | id, node :: rest => do
      if ← test id node then
        firstFailing test (id + 1) rest
      else
        return some id

/-- The first node whose key is not above that of its parent. -/
def pathFlaw (trie : Trie α) (order : Order α) : Except Fault (Option NodeId) :=
  firstFailing (fun _ node => trie.ascendsAt order node) root trie.nodes.toList

/-- The first node whose branches do not ascend, or do not lead to its children. -/
def branchFlaw (trie : Trie α) (order : Order α) : Except Fault (Option NodeId) :=
  firstFailing (trie.branchesSoundAt order) root trie.nodes.toList

def terminalCount (trie : Trie α) : Nat :=
  trie.nodes.toList.countP Node.terminal

/-- The number of terminal nodes, if it is not the recorded one or the root is
among them. -/
def countFlaw (trie : Trie α) : Except Fault (Option Nat) := do
  let rootNode ← trie.node root
  if rootNode.terminal || trie.terminalCount != trie.stored then
    return some trie.terminalCount
  else
    return none

def audit (trie : Trie α) (order : Order α) : Except Fault Unit := do
  if let some id ← trie.pathFlaw order then
    throw (.pathNotAscending id)
  if let some id ← trie.branchFlaw order then
    throw (.branchesMalformed id)
  if let some counted ← trie.countFlaw then
    throw (.countMismatch trie.stored counted)

end Containment.Trie
