import Containment.Proofs.Order.Classes
import Containment.Proofs.Trie.Routes

namespace Containment.Trie

variable {α : Type} {trie left right : Trie α} {order : Order α}

/-! A trie in order: in shape, sorted, and without a node that no stored sequence
passes through. -/

structure Orderly (order : Order α) (trie : Trie α) : Prop where
  shaped : trie.Shaped
  sorted : Sorted order trie
  trimmed : trie.Trimmed root

theorem Orderly.exists_stores (horderly : Orderly order trie) {id : Nat} {keys : List α}
    (hleads : trie.Leads root keys id) (hbelow : id ≠ root) :
    ∃ rest, trie.Stores (keys ++ rest) := by
  obtain ⟨_, hnode⟩ := hleads.finish_node
  revert keys hbelow
  apply horderly.shaped.descent (motive := fun id => ∀ keys, trie.Leads root keys id →
    id ≠ root → ∃ rest, trie.Stores (keys ++ rest)) _ (lt_size_of_node hnode)
  intro id node hnode induction keys hleads hbelow
  cases hbranches : node.branches with
  | nil =>
      have hleaf : node.isLeaf = true := by
        rw [Node.isLeaf, hbranches]
        rfl
      have hterminal : node.terminal = true := by
        rcases horderly.trimmed id node hnode hleaf with hroot | hroot | hterminal
        · exact absurd hroot hbelow
        · exact absurd hroot hbelow
        · exact hterminal
      refine ⟨[], id, node, ?_, hnode, hterminal⟩
      rwa [List.append_nil]
  | cons branch rest =>
      have hbranch : branch ∈ node.branches := by
        rw [hbranches]
        exact List.mem_cons_self
      obtain ⟨_, _, _, hlt, _⟩ := horderly.shaped.branch_child hnode hbranch
      obtain ⟨later, hstores⟩ := induction branch hbranch (keys ++ [branch.key])
        (hleads.snoc horderly.shaped hnode hbranch) (Nat.ne_of_gt (Nat.zero_lt_of_lt hlt))
      exact ⟨branch.key :: later, by rwa [List.append_assoc] at hstores⟩

/-! Two tries in order that store the same sequences, up to equivalent elements, are
alike node by node, though the nodes need not have the same numbers. -/

structure Alike (order : Order α) (left right : Trie α) : Prop where
  left_orderly : Orderly order left
  right_orderly : Orderly order right
  forward : ∀ keys, left.Stores keys → ∃ other, right.Stores other ∧ order.Agree keys other
  backward : ∀ keys, right.Stores keys → ∃ other, left.Stores other ∧ order.Agree keys other

theorem Alike.symm (halike : Alike order left right) : Alike order right left where
  left_orderly := halike.right_orderly
  right_orderly := halike.left_orderly
  forward := halike.backward
  backward := halike.forward

/-- The nodes that agreeing paths lead to. -/
def Twins (order : Order α) (left right : Trie α) (leftId rightId : NodeId) : Prop :=
  ∃ leftKeys rightKeys, left.Leads root leftKeys leftId ∧
    right.Leads root rightKeys rightId ∧ order.Agree leftKeys rightKeys

/-- Ways over equivalent keys to twins. -/
def Parallel (order : Order α) (left right : Trie α) (leftRoute rightRoute : Route α) : Prop :=
  order.Agree leftRoute.keys rightRoute.keys ∧
    Twins order left right leftRoute.finish rightRoute.finish

namespace Twins

variable {leftId rightId : Nat}

theorem symm [Std.TransCmp order] (htwins : Twins order left right leftId rightId) :
    Twins order right left rightId leftId := by
  obtain ⟨leftKeys, rightKeys, hleft, hright, hagree⟩ := htwins
  exact ⟨rightKeys, leftKeys, hright, hleft, hagree.symm⟩

theorem exists_nodes (htwins : Twins order left right leftId rightId) :
    ∃ leftNode, left.node leftId = .ok leftNode ∧
      ∃ rightNode, right.node rightId = .ok rightNode := by
  obtain ⟨_, _, hleft, hright, _⟩ := htwins
  obtain ⟨leftNode, hleftNode⟩ := hleft.finish_node
  exact ⟨leftNode, hleftNode, hright.finish_node⟩

end Twins

namespace Alike

theorem roots (halike : Alike order left right) : Twins order left right root root := by
  obtain ⟨_, hleft, _⟩ := halike.left_orderly.shaped.rooted
  obtain ⟨_, hright, _⟩ := halike.right_orderly.shaped.rooted
  exact ⟨[], [], .here hleft, .here hright, Order.agree_nil⟩

/-- Every node has a twin: it lies on a stored sequence, and so does the twin. -/
theorem exists_twin (halike : Alike order left right) {id : Nat} {keys : List α}
    (hleads : left.Leads root keys id) :
    ∃ otherKeys other, right.Leads root otherKeys other ∧ order.Agree keys otherKeys := by
  by_cases hroot : id = root
  · subst hroot
    obtain ⟨_, hleft, _⟩ := halike.left_orderly.shaped.rooted
    obtain ⟨_, hright, _⟩ := halike.right_orderly.shaped.rooted
    obtain rfl := halike.left_orderly.shaped.leads_unique hleads (.here hleft)
    exact ⟨[], root, .here hright, Order.agree_nil⟩
  · obtain ⟨rest, hstores⟩ := halike.left_orderly.exists_stores hleads hroot
    obtain ⟨other, hother, hagree⟩ := halike.forward _ hstores
    obtain ⟨front, back, rfl, hfront, _⟩ := hagree.exists_append
    obtain ⟨_, _, hotherLeads, _⟩ := hother
    obtain ⟨middle, hmiddle, _⟩ := hotherLeads.split
    exact ⟨front, middle, hmiddle, hfront⟩

section Nodes

variable [Std.TransCmp order] {leftId rightId : Nat} {leftNode rightNode : Node α}

/-- What a node branches under, its twin branches under as well. -/
private theorem keys_included (halike : Alike order left right)
    (htwins : Twins order left right leftId rightId)
    (hleft : left.node leftId = .ok leftNode) (hright : right.node rightId = .ok rightNode) :
    order.Included (leftNode.branches.map Branch.key) (rightNode.branches.map Branch.key) := by
  obtain ⟨leftKeys, rightKeys, hleftLeads, hrightLeads, hagree⟩ := htwins
  intro key hkey
  obtain ⟨branch, hbranch, rfl⟩ := List.mem_map.mp hkey
  obtain ⟨otherKeys, other, hother, hotherAgree⟩ :=
    halike.exists_twin (hleftLeads.snoc halike.left_orderly.shaped hleft hbranch)
  obtain ⟨front, back, rfl, hfront, hback⟩ := hotherAgree.exists_append
  obtain ⟨middle, hmiddle, hlast⟩ := hother.split
  obtain ⟨_, rfl⟩ := halike.right_orderly.sorted.leads_agree_unique hmiddle hrightLeads
    (hfront.symm.trans hagree)
  cases hback with
  | cons heq _ =>
      cases hlast with
      | down hnode hmember _ =>
          obtain rfl := node_unique hnode hright
          exact ⟨_, List.mem_map_of_mem hmember, heq⟩

theorem branches (halike : Alike order left right)
    (htwins : Twins order left right leftId rightId)
    (hleft : left.node leftId = .ok leftNode) (hright : right.node rightId = .ok rightNode) :
    List.Forall₂ (fun leftBranch rightBranch =>
      order leftBranch.key rightBranch.key = .eq ∧
        Twins order left right leftBranch.child rightBranch.child)
      leftNode.branches rightNode.branches := by
  have hclasses : order.classes (leftNode.branches.map Branch.key) =
      order.classes (rightNode.branches.map Branch.key) :=
    Finset.Subset.antisymm
      (Order.classes_subset_iff.mpr (halike.keys_included htwins hleft hright))
      (Order.classes_subset_iff.mpr (halike.symm.keys_included htwins.symm hright hleft))
  have hkeys : order.Agree (leftNode.branches.map Branch.key)
      (rightNode.branches.map Branch.key) :=
    (halike.left_orderly.sorted.siblings leftId leftNode hleft).agree_of_classes_eq
      (halike.right_orderly.sorted.siblings rightId rightNode hright) hclasses
  obtain ⟨leftKeys, rightKeys, hleftLeads, hrightLeads, hagree⟩ := htwins
  rw [Order.Agree, List.forall₂_map_left_iff, List.forall₂_map_right_iff] at hkeys
  obtain ⟨hlength, hpairs⟩ := List.forall₂_iff_zip.mp hkeys
  refine List.forall₂_iff_zip.mpr ⟨hlength, ?_⟩
  intro leftBranch rightBranch hpair
  obtain ⟨hleftBranch, hrightBranch⟩ := List.of_mem_zip hpair
  have heq := hpairs hpair
  exact ⟨heq, _, _, hleftLeads.snoc halike.left_orderly.shaped hleft hleftBranch,
    hrightLeads.snoc halike.right_orderly.shaped hright hrightBranch,
    hagree.append (Order.agree_cons.mpr ⟨heq, Order.agree_nil⟩)⟩

theorem terminal_eq (halike : Alike order left right)
    (htwins : Twins order left right leftId rightId)
    (hleft : left.node leftId = .ok leftNode) (hright : right.node rightId = .ok rightNode) :
    leftNode.terminal = rightNode.terminal := by
  obtain ⟨leftKeys, rightKeys, hleftLeads, hrightLeads, hagree⟩ := htwins
  rw [Bool.eq_iff_iff,
    halike.left_orderly.sorted.terminal_iff hleftLeads hagree hleft,
    halike.right_orderly.sorted.terminal_iff hrightLeads (Order.Agree.refl _) hright]
  constructor
  · intro hstored
    obtain ⟨stored, hstores, hstoredAgree⟩ := hstored
    obtain ⟨other, hother, hotherAgree⟩ := halike.forward stored hstores
    exact ⟨other, hother, hotherAgree.symm.trans hstoredAgree⟩
  · intro hstored
    obtain ⟨stored, hstores, hstoredAgree⟩ := hstored
    obtain ⟨other, hother, hotherAgree⟩ := halike.backward stored hstores
    exact ⟨other, hother, hotherAgree.symm.trans hstoredAgree⟩

theorem terminalAt_eq (halike : Alike order left right)
    (htwins : Twins order left right leftId rightId) :
    left.terminalAt leftId = right.terminalAt rightId := by
  obtain ⟨leftNode, hleft, rightNode, hright⟩ := htwins.exists_nodes
  rw [terminalAt_of_node hleft, terminalAt_of_node hright,
    halike.terminal_eq htwins hleft hright]

end Nodes

section Whole

variable [Std.TransCmp order]

/-- The ways down from twins are the same ways, in the same order. -/
theorem routes (halike : Alike order left right) {leftId rightId : Nat}
    (htwins : Twins order left right leftId rightId) :
    List.Forall₂ (Parallel order left right) (left.routes leftId) (right.routes rightId) := by
  have hid : leftId < left.nodes.size := by
    obtain ⟨_, hstart, _⟩ := htwins.exists_nodes
    exact lt_size_of_node hstart
  apply halike.left_orderly.shaped.descent (motive := fun leftId => ∀ rightId : Nat,
    Twins order left right leftId rightId →
      List.Forall₂ (Parallel order left right) (left.routes leftId) (right.routes rightId))
    _ hid rightId htwins
  intro id leftNode hleft induction other hothers
  obtain ⟨_, _, rightNode, hright⟩ := hothers.exists_nodes
  rw [halike.left_orderly.shaped.routes_eq hleft, halike.right_orderly.shaped.routes_eq hright]
  refine .cons ⟨Order.agree_nil, hothers⟩ ?_
  have hbranches := (List.forall₂_and_left _ _).mpr
    ⟨fun _ hbranch => hbranch, halike.branches hothers hleft hright⟩
  refine List.rel_flatMap hbranches ?_
  intro leftBranch rightBranch hpair
  obtain ⟨hbranch, heq, hchildren⟩ := hpair
  rw [List.forall₂_map_left_iff, List.forall₂_map_right_iff]
  refine (induction leftBranch hbranch _ hchildren).imp ?_
  intro leftRoute rightRoute hparallel
  exact ⟨Order.agree_cons.mpr ⟨heq, hparallel.1⟩, hparallel.2⟩

/-- What is stored is listed in the same order. -/
theorem storedBelow (halike : Alike order left right) :
    List.Forall₂ order.Agree (left.storedBelow root) (right.storedBelow root) := by
  rw [Trie.storedBelow, Trie.storedBelow, List.forall₂_map_left_iff,
    List.forall₂_map_right_iff]
  refine (List.rel_filter ?_ (halike.routes halike.roots)).imp
    fun _ _ hparallel => hparallel.1
  intro leftRoute rightRoute hparallel
  dsimp only
  rw [halike.terminalAt_eq hparallel.2]

theorem size_eq (halike : Alike order left right) : left.nodes.size = right.nodes.size := by
  rw [← halike.left_orderly.shaped.length_routes, ← halike.right_orderly.shaped.length_routes]
  exact (halike.routes halike.roots).length_eq

end Whole

end Alike

end Containment.Trie
