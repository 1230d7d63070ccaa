import Containment.Trie.Audit
import Containment.Proofs.Except
import Containment.Proofs.Trie.Sorted

namespace Containment.Trie

variable {α : Type} {trie : Trie α} {order : Order α} {id : Nat} {node : Node α}

/-! An audit of a trie in shape that is sorted under the order has nothing to
report. Each of its looks is settled by one clause of the two invariants. -/

theorem firstFailing_eq_none {test : NodeId → Node α → Except Fault Bool}
    {start : Nat} {nodes : List (Node α)}
    (hpass : ∀ offset node, nodes[offset]? = some node →
      test (start + offset) node = .ok true) :
    firstFailing test start nodes = .ok none := by
  induction nodes generalizing start with
  | nil => rfl
  | cons node rest induction =>
      have hfirst : test start node = .ok true := hpass 0 node rfl
      have hrest : firstFailing test (start + 1) rest = .ok none := by
        apply induction
        intro offset later hlater
        have hpassed := hpass (offset + 1) later hlater
        rwa [Nat.add_assoc, Nat.add_comm 1]
      simp only [firstFailing, hfirst, Except.ok_bind, if_true, hrest]

private theorem firstFailing_nodes {test : NodeId → Node α → Except Fault Bool}
    (hpass : ∀ (id : Nat) node, trie.node id = .ok node → test id node = .ok true) :
    firstFailing test root trie.nodes.toList = .ok none := by
  apply firstFailing_eq_none
  intro offset node hnode
  rw [Array.getElem?_toList] at hnode
  rw [root, Nat.zero_add]
  exact hpass offset node (node_eq_ok_iff.mpr hnode)

theorem Sorted.ascendsAt_eq (hshaped : trie.Shaped) (hsorted : Sorted order trie)
    (hnode : trie.node id = .ok node) : trie.ascendsAt order node = .ok true := by
  by_cases hroot : id = root
  · subst hroot
    unfold ascendsAt
    rw [hshaped.origin_of_root hnode]
    rfl
  · obtain ⟨key, parent, owner, horigin, _, howner, _, hbranch⟩ :=
      hshaped.hung id node hnode hroot
    simp only [ascendsAt, horigin, howner, Except.ok_bind]
    cases hkey : owner.key? with
    | none => rfl
    | some above =>
        have hlt : order above key = .lt :=
          hsorted.above parent owner above _ howner hkey hbranch
        simp only [Option.map_some, Option.getD_some, hlt]
        rfl

theorem Shaped.linked_eq [Std.TransCmp order] (hshaped : trie.Shaped)
    {branch : Branch α} (hnode : trie.node id = .ok node)
    (hbranch : branch ∈ node.branches) : trie.linked order id branch = .ok true := by
  obtain ⟨child, hchild, horigin⟩ := hshaped.linked id node branch hnode hbranch
  have hsame : order.equivalent branch.key branch.key = true :=
    Order.equivalent_eq_true.mpr Std.ReflCmp.compare_self
  simp only [Trie.linked, hchild, Except.ok_bind, horigin, Option.map_some,
    Option.getD_some, beq_self_eq_true, hsame, Bool.and_self]
  rfl

theorem Sorted.branchesSoundAt_eq [Std.TransCmp order] (hshaped : trie.Shaped)
    (hsorted : Sorted order trie) (hnode : trie.node id = .ok node) :
    trie.branchesSoundAt order id node = .ok true := by
  have hlinks : node.branches.mapM (trie.linked order id) =
      .ok (node.branches.map fun _ => true) :=
    Except.mapM_eq_ok fun branch hbranch => hshaped.linked_eq hnode hbranch
  have hascending : order.ascending (node.branches.map Branch.key) = true :=
    Order.ascending_eq_true_iff.mpr (hsorted.siblings id node hnode)
  simp only [branchesSoundAt, hlinks, Except.ok_bind, hascending]
  simp [pure, Except.pure]

theorem Shaped.countFlaw_eq (hshaped : trie.Shaped) : trie.countFlaw = .ok none := by
  obtain ⟨node, hroot, _, _, hunmarked⟩ := hshaped.rooted
  simp only [countFlaw, hroot, Except.ok_bind, hunmarked, hshaped.counted]
  simp [pure, Except.pure]

theorem Sorted.audit_eq [Std.TransCmp order] (hshaped : trie.Shaped)
    (hsorted : Sorted order trie) : trie.audit order = .ok () := by
  have hpath : trie.pathFlaw order = .ok none :=
    firstFailing_nodes fun _ _ hnode => hsorted.ascendsAt_eq hshaped hnode
  have hbranch : trie.branchFlaw order = .ok none :=
    firstFailing_nodes fun _ _ hnode => hsorted.branchesSoundAt_eq hshaped hnode
  unfold audit
  rw [hpath, hbranch, hshaped.countFlaw_eq]
  rfl

end Containment.Trie
