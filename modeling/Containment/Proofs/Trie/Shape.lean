import Containment.Trie.Audit
import Containment.Trie.Path
import Mathlib.Data.List.Induction

namespace Containment.Trie

variable {α : Type} {trie : Trie α}

theorem node_eq_ok_iff {id : Nat} {node : Node α} :
    trie.node id = .ok node ↔ trie.nodes[id]? = some node := by
  unfold Trie.node
  cases trie.nodes[id]? <;> simp

theorem lt_size_of_node {id : Nat} {node : Node α}
    (hnode : trie.node id = .ok node) : id < trie.nodes.size :=
  (Array.getElem?_eq_some_iff.mp (node_eq_ok_iff.mp hnode)).1

theorem exists_node {id : Nat} (hid : id < trie.nodes.size) :
    ∃ node, trie.node id = .ok node :=
  ⟨trie.nodes[id], node_eq_ok_iff.mpr (Array.getElem?_eq_getElem hid)⟩

theorem node_unique {id : Nat} {left right : Node α}
    (hleft : trie.node id = .ok left) (hright : trie.node id = .ok right) :
    left = right :=
  Except.ok.inj (hleft.symm.trans hright)

/-! The shape of a trie, of which no order has a part: parents are older than
their children, and the branches and the origins of the nodes are two records of
the same links. -/

structure Shaped (trie : Trie α) : Prop where
  rooted : ∃ node, trie.node root = .ok node ∧
    node.origin = none ∧ node.depth = 0 ∧ node.terminal = false
  hung : ∀ (id : Nat) node, trie.node id = .ok node → id ≠ root →
    ∃ (key : α) (parent : Nat) (owner : Node α),
      node.origin = some { key, parent } ∧ parent < id ∧
        trie.node parent = .ok owner ∧ node.depth = owner.depth + 1 ∧
        { key, child := id } ∈ owner.branches
  linked : ∀ (id : Nat) node branch, trie.node id = .ok node → branch ∈ node.branches →
    ∃ child, trie.node branch.child = .ok child ∧
      child.origin = some { key := branch.key, parent := id }
  children_nodup : ∀ (id : Nat) node, trie.node id = .ok node → node.children.Nodup
  counted : trie.stored = trie.terminalCount

namespace Shaped

theorem size_pos (hshaped : trie.Shaped) : 0 < trie.nodes.size := by
  obtain ⟨_, hroot, _⟩ := hshaped.rooted
  exact lt_size_of_node hroot

theorem origin_of_root (hshaped : trie.Shaped) {node : Node α}
    (hnode : trie.node root = .ok node) : node.origin = none := by
  obtain ⟨found, hfound, horigin, _⟩ := hshaped.rooted
  rw [node_unique hnode hfound, horigin]

theorem child_ne_root (hshaped : trie.Shaped) {id : Nat} {node : Node α}
    {branch : Branch α} (hnode : trie.node id = .ok node)
    (hbranch : branch ∈ node.branches) : branch.child ≠ root := by
  obtain ⟨child, hchild, horigin⟩ := hshaped.linked id node branch hnode hbranch
  intro heq
  rw [heq] at hchild
  rw [hshaped.origin_of_root hchild] at horigin
  contradiction

/-- A branch leads to a younger node, one step deeper. -/
theorem branch_child (hshaped : trie.Shaped) {id : Nat} {node : Node α}
    {branch : Branch α} (hnode : trie.node id = .ok node)
    (hbranch : branch ∈ node.branches) :
    ∃ child, trie.node branch.child = .ok child ∧
      child.origin = some { key := branch.key, parent := id } ∧
      id < branch.child ∧ child.depth = node.depth + 1 := by
  obtain ⟨child, hchild, horigin⟩ := hshaped.linked id node branch hnode hbranch
  obtain ⟨key, parent, owner, hfound, hlt, howner, hdepth, _⟩ :=
    hshaped.hung branch.child child hchild (hshaped.child_ne_root hnode hbranch)
  rw [horigin] at hfound
  cases hfound
  rw [node_unique howner hnode] at hdepth
  exact ⟨child, hchild, horigin, hlt, hdepth⟩

theorem owner_unique (hshaped : trie.Shaped) {left right : Nat} {leftNode rightNode : Node α}
    {leftBranch rightBranch : Branch α} (hleft : trie.node left = .ok leftNode)
    (hright : trie.node right = .ok rightNode) (hleftBranch : leftBranch ∈ leftNode.branches)
    (hrightBranch : rightBranch ∈ rightNode.branches)
    (hchild : leftBranch.child = rightBranch.child) :
    left = right ∧ leftBranch = rightBranch := by
  obtain ⟨child, hnode, horigin⟩ := hshaped.linked left leftNode leftBranch hleft hleftBranch
  obtain ⟨other, hother, hotherOrigin⟩ :=
    hshaped.linked right rightNode rightBranch hright hrightBranch
  obtain ⟨leftKey, leftChild⟩ := leftBranch
  obtain ⟨rightKey, rightChild⟩ := rightBranch
  obtain rfl : leftChild = rightChild := hchild
  rw [node_unique hnode hother, hotherOrigin] at horigin
  cases horigin
  exact ⟨rfl, rfl⟩

/-- From the children up to their parents. -/
theorem descent (hshaped : trie.Shaped) {motive : Nat → Prop}
    (step : ∀ (id : Nat) node, trie.node id = .ok node →
      (∀ branch ∈ node.branches, motive branch.child) → motive id)
    {id : Nat} (hid : id < trie.nodes.size) : motive id := by
  induction hdistance : trie.nodes.size - id using Nat.strongRecOn generalizing id with
  | _ distance induction =>
      obtain ⟨node, hnode⟩ := exists_node hid
      refine step id node hnode ?_
      intro branch hbranch
      obtain ⟨child, hchild, _, hlt, _⟩ := hshaped.branch_child hnode hbranch
      have hchildSize := lt_size_of_node hchild
      exact induction _ (by omega) hchildSize rfl

theorem depth_le (hshaped : trie.Shaped) {id : Nat} {node : Node α}
    (hnode : trie.node id = .ok node) : node.depth ≤ id := by
  induction id using Nat.strongRecOn generalizing node with
  | _ id induction =>
      by_cases hroot : id = root
      · subst hroot
        obtain ⟨found, hfound, _, hdepth, _⟩ := hshaped.rooted
        rw [node_unique hnode hfound, hdepth]
        exact Nat.zero_le _
      · obtain ⟨key, parent, owner, _, hlt, howner, hdepth, _⟩ :=
          hshaped.hung id node hnode hroot
        have hparent := induction parent hlt howner
        omega

end Shaped

/-! The keys on the way down from one node to another. -/

inductive Leads (trie : Trie α) : NodeId → List α → NodeId → Prop
  | here {id : Nat} {node : Node α} (hnode : trie.node id = .ok node) :
      Leads trie id [] id
  | down {id finish : NodeId} {node : Node α} {branch : Branch α} {keys : List α}
      (hnode : trie.node id = .ok node) (hbranch : branch ∈ node.branches)
      (hrest : Leads trie branch.child keys finish) :
      Leads trie id (branch.key :: keys) finish

namespace Leads

variable {start middle finish : Nat} {keys front back : List α}

theorem start_node (hleads : trie.Leads start keys finish) :
    ∃ node, trie.node start = .ok node := by
  cases hleads with
  | here hnode => exact ⟨_, hnode⟩
  | down hnode => exact ⟨_, hnode⟩

theorem finish_node (hleads : trie.Leads start keys finish) :
    ∃ node, trie.node finish = .ok node := by
  induction hleads with
  | here hnode => exact ⟨_, hnode⟩
  | down _ _ _ induction => exact induction

theorem append (hfront : trie.Leads start front middle)
    (hback : trie.Leads middle back finish) :
    trie.Leads start (front ++ back) finish := by
  induction hfront with
  | here => exact hback
  | down hnode hbranch _ induction => exact .down hnode hbranch (induction hback)

theorem split (hleads : trie.Leads start (front ++ back) finish) :
    ∃ middle, trie.Leads start front middle ∧ trie.Leads middle back finish := by
  induction front generalizing start with
  | nil =>
      obtain ⟨node, hnode⟩ := hleads.start_node
      exact ⟨start, .here hnode, hleads⟩
  | cons key front induction =>
      cases hleads with
      | down hnode hbranch hrest =>
          obtain ⟨middle, hfront, hback⟩ := induction hrest
          exact ⟨middle, .down hnode hbranch hfront, hback⟩

theorem split_at (hleads : trie.Leads start keys finish) (count : Nat) :
    ∃ middle, trie.Leads start (keys.take count) middle ∧
      trie.Leads middle (keys.drop count) finish := by
  rw [← List.take_append_drop count keys] at hleads
  exact hleads.split

theorem snoc (hshaped : trie.Shaped) {node : Node α} {branch : Branch α}
    (hleads : trie.Leads start keys middle) (hnode : trie.node middle = .ok node)
    (hbranch : branch ∈ node.branches) :
    trie.Leads start (keys ++ [branch.key]) branch.child := by
  obtain ⟨child, hchild, _⟩ := hshaped.linked middle node branch hnode hbranch
  exact hleads.append (.down hnode hbranch (.here hchild))

/-- The last step of a way down is the origin of the node it ends at. -/
theorem exists_origin (hshaped : trie.Shaped) {key : α}
    (hleads : trie.Leads start (keys ++ [key]) finish) :
    ∃ middle node, trie.Leads start keys middle ∧ trie.node finish = .ok node ∧
      node.origin = some { key, parent := middle } := by
  obtain ⟨middle, hfront, hlast⟩ := hleads.split
  cases hlast with
  | down hnode hbranch hend =>
      obtain ⟨child, hchild, horigin⟩ := hshaped.linked _ _ _ hnode hbranch
      cases hend with
      | here => exact ⟨middle, child, hfront, hchild, horigin⟩

theorem depth_eq (hshaped : trie.Shaped) (hleads : trie.Leads start keys finish)
    {first last : Node α} (hfirst : trie.node start = .ok first)
    (hlast : trie.node finish = .ok last) :
    last.depth = first.depth + keys.length := by
  induction hleads generalizing first with
  | here => rw [node_unique hlast hfirst]; rfl
  | down hnode hbranch _ induction =>
      obtain ⟨child, hchild, _, _, hdepth⟩ := hshaped.branch_child hnode hbranch
      rw [induction hchild hlast, hdepth, node_unique hnode hfirst, List.length_cons]
      omega

/-- Two ways to one node, equally long, are the same way. -/
theorem unique (hshaped : trie.Shaped) {other : Nat} {otherKeys : List α}
    (hleft : trie.Leads start keys finish) (hright : trie.Leads other otherKeys finish)
    (hlength : keys.length = otherKeys.length) : start = other ∧ keys = otherKeys := by
  induction keys using List.reverseRecOn generalizing finish otherKeys with
  | nil =>
      obtain rfl : otherKeys = [] := List.length_eq_zero_iff.mp hlength.symm
      cases hleft
      cases hright
      exact ⟨rfl, rfl⟩
  | append_singleton keys key induction =>
      cases otherKeys using List.reverseRecOn with
      | nil => simp at hlength
      | append_singleton otherKeys otherKey =>
          obtain ⟨middle, node, hfront, hnode, horigin⟩ := hleft.exists_origin hshaped
          obtain ⟨otherMiddle, otherNode, hotherFront, hotherNode, hotherOrigin⟩ :=
            hright.exists_origin hshaped
          rw [node_unique hnode hotherNode, hotherOrigin] at horigin
          cases horigin
          obtain ⟨rfl, rfl⟩ := induction hfront hotherFront (by simpa using hlength)
          exact ⟨rfl, rfl⟩

end Leads

/-! Every node is reached from the root in one way, which is the path to it. -/

namespace Shaped

variable {id : Nat} {keys : List α}

theorem key?_eq_getLast? (hshaped : trie.Shaped) (hleads : trie.Leads root keys id)
    {node : Node α} (hnode : trie.node id = .ok node) : node.key? = keys.getLast? := by
  cases keys using List.reverseRecOn with
  | nil =>
      cases hleads
      rw [Node.key?, hshaped.origin_of_root hnode]
      rfl
  | append_singleton above last =>
      obtain ⟨_, found, _, hfound, horigin⟩ := hleads.exists_origin hshaped
      rw [node_unique hnode hfound, Node.key?, horigin, List.getLast?_append,
        List.getLast?_singleton]
      rfl

theorem length_of_leads (hshaped : trie.Shaped) (hleads : trie.Leads root keys id)
    {node : Node α} (hnode : trie.node id = .ok node) : node.depth = keys.length := by
  obtain ⟨first, hfirst, _, hdepth, _⟩ := hshaped.rooted
  rw [hleads.depth_eq hshaped hfirst hnode, hdepth, Nat.zero_add]

theorem exists_leads (hshaped : trie.Shaped) (hid : id < trie.nodes.size) :
    ∃ keys, trie.Leads root keys id := by
  induction id using Nat.strongRecOn with
  | _ id induction =>
      obtain ⟨node, hnode⟩ := exists_node hid
      by_cases hroot : id = root
      · subst hroot
        exact ⟨[], .here hnode⟩
      · obtain ⟨key, parent, owner, _, hlt, howner, _, hbranch⟩ :=
          hshaped.hung id node hnode hroot
        obtain ⟨keys, hleads⟩ := induction parent hlt (Nat.lt_trans hlt hid)
        exact ⟨keys ++ [key], hleads.snoc hshaped howner hbranch⟩

theorem leads_unique (hshaped : trie.Shaped) {otherKeys : List α}
    (hleft : trie.Leads root keys id) (hright : trie.Leads root otherKeys id) :
    keys = otherKeys := by
  obtain ⟨node, hnode⟩ := hleft.finish_node
  refine (hleft.unique hshaped hright ?_).2
  rw [← hshaped.length_of_leads hleft hnode, hshaped.length_of_leads hright hnode]

private theorem climb_eq (hshaped : trie.Shaped) {budget : Nat} {below : List α}
    (hleads : trie.Leads root keys id) (hbudget : keys.length < budget) :
    trie.climb budget id below = .ok (keys ++ below) := by
  induction keys using List.reverseRecOn generalizing id budget below with
  | nil =>
      obtain ⟨budget, rfl⟩ := Nat.exists_eq_succ_of_ne_zero (Nat.ne_of_gt hbudget)
      cases hleads with
      | here hnode =>
          simp only [climb, hnode, hshaped.origin_of_root hnode, bind, Except.bind]
          rfl
  | append_singleton keys key induction =>
      obtain ⟨budget, rfl⟩ :=
        Nat.exists_eq_succ_of_ne_zero (Nat.ne_of_gt (Nat.zero_lt_of_lt hbudget))
      obtain ⟨middle, node, hfront, hnode, horigin⟩ := hleads.exists_origin hshaped
      rw [List.length_append, List.length_singleton] at hbudget
      simp only [climb, hnode, horigin, bind, Except.bind]
      rw [induction hfront (by omega), List.append_assoc, List.singleton_append]

theorem pathTo_of_leads (hshaped : trie.Shaped) (hleads : trie.Leads root keys id) :
    trie.pathTo id = .ok keys := by
  obtain ⟨node, hnode⟩ := hleads.finish_node
  have hdepth := hshaped.length_of_leads hleads hnode
  have hle := hshaped.depth_le hnode
  have hid := lt_size_of_node hnode
  rw [pathTo, hshaped.climb_eq hleads (by omega), List.append_nil]

private theorem node_of_pathTo {budget : Nat} {below : List α}
    (hclimb : trie.climb budget id below = .ok keys) : ∃ node, trie.node id = .ok node := by
  cases budget with
  | zero => contradiction
  | succ budget =>
      cases hnode : trie.node id with
      | ok node => exact ⟨node, rfl⟩
      | error fault =>
          simp only [climb, hnode, bind, Except.bind] at hclimb
          contradiction

theorem pathTo_eq_ok_iff (hshaped : trie.Shaped) :
    trie.pathTo id = .ok keys ↔ trie.Leads root keys id := by
  constructor
  · intro hpath
    obtain ⟨node, hnode⟩ := node_of_pathTo hpath
    obtain ⟨found, hleads⟩ := hshaped.exists_leads (lt_size_of_node hnode)
    rw [hshaped.pathTo_of_leads hleads] at hpath
    cases hpath
    exact hleads
  · exact hshaped.pathTo_of_leads

end Shaped

end Containment.Trie
