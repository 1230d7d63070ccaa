import Containment.Proofs.Trie.Audit

namespace Containment.Trie

variable {α : Type} {trie : Trie α}

/-! Changes made to a trie one after another. Each brings a comparison of its own,
which need not be an order, and may break off; what it has made by then stays. -/

inductive Change (α : Type) where
  | path (order : Order α) (keys : List α)
  | child (order : Order α) (parent : NodeId) (key : α)

def change (trie : Trie α) : Change α → Trie α
  | .path order keys => (trie.insertPath order keys).2
  | .child order parent key => (trie.childOrCreate order parent key).2

def changed (trie : Trie α) (changes : List (Change α)) : Trie α :=
  changes.foldl change trie

/-- What changes make of the empty trie. -/
def grown (changes : List (Change α)) : Trie α :=
  Trie.empty.changed changes

theorem childOrCreate_of_error {order : Order α} {parent : NodeId} {key : α}
    {fault : Fault} (hnode : trie.node parent = .error fault) :
    trie.childOrCreate order parent key = (.error fault, trie) := by
  simp only [childOrCreate, hnode]

theorem Shaped.change (hshaped : trie.Shaped) (change : Change α) :
    (trie.change change).Shaped := by
  cases change with
  | path order keys => exact hshaped.insertPath order keys
  | child order parent key =>
      cases hnode : trie.node parent with
      | ok owner => exact (hshaped.childOrCreate order key hnode).1
      | error fault =>
          rw [Trie.change, childOrCreate_of_error hnode]
          exact hshaped

theorem Shaped.changed (hshaped : trie.Shaped) (changes : List (Change α)) :
    (trie.changed changes).Shaped := by
  induction changes generalizing trie with
  | nil => exact hshaped
  | cons change changes induction => exact induction (hshaped.change change)

theorem grown_shaped (changes : List (Change α)) : (grown changes).Shaped :=
  shaped_empty.changed changes

/-! The shape in full: what each node and each branch says of the others. -/

structure IsTree (trie : Trie α) : Prop where
  root_bare : ∃ node, trie.node root = .ok node ∧
    node.key? = none ∧ node.parent? = none ∧ node.terminal = false
  /-- A node other than the root stands on one position of one list of branches. -/
  hung : ∀ (id : Nat) node, trie.node id = .ok node → id ≠ root →
    ∃ (key : α) (parent : Nat) (owner : Node α) (position : Nat),
      node.key? = some key ∧ node.parent? = some parent ∧ parent < id ∧
      trie.node parent = .ok owner ∧ node.depth = owner.depth + 1 ∧
      owner.branches[position]? = some { key, child := id } ∧
      ∀ (other : Nat) holder (place : Nat) branch, trie.node other = .ok holder →
        holder.branches[place]? = some branch → branch.child = id →
          other = parent ∧ place = position
  depth_le : ∀ (id : Nat) node, trie.node id = .ok node → node.depth ≤ id
  children_within : ∀ (id : Nat) node branch, trie.node id = .ok node →
    branch ∈ node.branches → branch.child < trie.nodes.size
  counted : trie.stored = trie.terminalCount

/-- Branches to one node are one entry of one list. -/
theorem Shaped.position_unique (hshaped : trie.Shaped) {left right : Nat}
    {leftNode rightNode : Node α} {leftPlace rightPlace : Nat} {leftBranch rightBranch : Branch α}
    (hleft : trie.node left = .ok leftNode) (hright : trie.node right = .ok rightNode)
    (hleftPlace : leftNode.branches[leftPlace]? = some leftBranch)
    (hrightPlace : rightNode.branches[rightPlace]? = some rightBranch)
    (hchild : leftBranch.child = rightBranch.child) :
    left = right ∧ leftPlace = rightPlace := by
  obtain ⟨rfl, -⟩ := hshaped.owner_unique hleft hright (List.mem_of_getElem? hleftPlace)
    (List.mem_of_getElem? hrightPlace) hchild
  obtain rfl := node_unique hleft hright
  refine ⟨rfl, ?_⟩
  have hchildren : leftNode.children[leftPlace]? = leftNode.children[rightPlace]? := by
    simp only [Node.children, List.getElem?_map, hleftPlace, hrightPlace, Option.map_some, hchild]
  have hlength : leftPlace < leftNode.children.length := by
    rw [Node.children, List.length_map]
    exact (List.getElem?_eq_some_iff.mp hleftPlace).1
  exact (List.getElem?_inj hlength (hshaped.children_nodup _ _ hleft)).mp hchildren

theorem Shaped.isTree (hshaped : trie.Shaped) : trie.IsTree where
  root_bare := by
    obtain ⟨node, hroot, horigin, _, hunmarked⟩ := hshaped.rooted
    exact ⟨node, hroot, by rw [Node.key?, horigin]; rfl, by rw [Node.parent?, horigin]; rfl,
      hunmarked⟩
  hung := by
    intro id node hnode hne
    obtain ⟨key, parent, owner, horigin, hlt, howner, hdepth, hbranch⟩ :=
      hshaped.hung id node hnode hne
    obtain ⟨position, hposition⟩ := List.getElem?_of_mem hbranch
    refine ⟨key, parent, owner, position, by rw [Node.key?, horigin]; rfl,
      by rw [Node.parent?, horigin]; rfl, hlt, howner, hdepth, hposition, ?_⟩
    intro other holder place branch hholder hplace hchild
    exact hshaped.position_unique hholder howner hplace hposition hchild
  depth_le := fun _ _ hnode => hshaped.depth_le hnode
  children_within := by
    intro id node branch hnode hbranch
    obtain ⟨child, hchild, _⟩ := hshaped.branch_child hnode hbranch
    exact lt_size_of_node hchild
  counted := hshaped.counted

/-- Whatever the comparisons, and however many of the changes break off, what has
grown is a tree, and the look at its count finds nothing amiss. -/
theorem grown_isTree (changes : List (Change α)) :
    (grown changes).IsTree ∧ (grown changes).countFlaw = .ok none :=
  ⟨(grown_shaped changes).isTree, (grown_shaped changes).countFlaw_eq⟩

end Containment.Trie
