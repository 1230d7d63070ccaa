import Containment.Proofs.Index.Run
import Containment.Proofs.Order.Lawful
import Containment.Proofs.Trie.Audit
import Containment.Proofs.Trie.Collection

namespace Containment

variable {α : Type} {order : Order α} {config : Config} {index : Index α}

/-! The structure that the searches of an index rely on, in the words of the trie's
own functions: what stands on its paths and branches, and which nodes are marked. -/

structure Trie.WellFormed (order : Order α) (limit : Nat) (trie : Trie α) : Prop where
  paths_ascend : ∀ id : Nat, id < trie.nodes.size →
    ∃ path, trie.pathTo id = .ok path ∧ order.Ascends path
  branches_ascend : ∀ (id : Nat) node, trie.node id = .ok node →
    order.Ascends (node.branches.map Branch.key)
  paths_differ : ∀ (left right : Nat) leftPath rightPath,
    trie.pathTo left = .ok leftPath → trie.pathTo right = .ok rightPath →
      order.Agree leftPath rightPath → left = right
  root_unmarked : ∃ node, trie.node Trie.root = .ok node ∧ node.terminal = false
  leaves_marked : ∀ (id : Nat) node, trie.node id = .ok node → id ≠ Trie.root →
    node.branches = [] → node.terminal = true
  counted : trie.stored = trie.terminalCount
  depths_bounded : ∀ (id : Nat) node, trie.node id = .ok node →
    node.terminal = true → node.depth ≤ limit

namespace Index

variable [Std.TransCmp order]

theorem Sound.wellFormed (hsound : Sound order config index) :
    index.trie.WellFormed order config.maxSetSize.toNat where
  paths_ascend := by
    intro id hid
    obtain ⟨path, hleads⟩ := hsound.shaped.exists_leads hid
    exact ⟨path, hsound.shaped.pathTo_of_leads hleads,
      hsound.sorted.path_ascends hsound.shaped hleads⟩
  branches_ascend := hsound.sorted.siblings
  paths_differ := by
    intro left right leftPath rightPath hleft hright hagree
    have hleftLeads := hsound.shaped.pathTo_eq_ok_iff.mp hleft
    have hrightLeads := hsound.shaped.pathTo_eq_ok_iff.mp hright
    exact (hsound.sorted.leads_agree_unique hleftLeads hrightLeads hagree).2
  root_unmarked := by
    obtain ⟨node, hroot, _, _, hunmarked⟩ := hsound.shaped.rooted
    exact ⟨node, hroot, hunmarked⟩
  leaves_marked := by
    intro id node hnode hroot hbranches
    have hleaf : node.isLeaf = true := List.isEmpty_iff.mpr hbranches
    rcases hsound.trimmed id node hnode hleaf with hisRoot | hisRoot | hterminal
    · exact absurd hisRoot hroot
    · exact absurd hisRoot hroot
    · exact hterminal
  counted := hsound.shaped.counted
  depths_bounded := by
    intro id node hnode hterminal
    obtain ⟨path, hleads⟩ := hsound.shaped.exists_leads (Trie.lt_size_of_node hnode)
    rw [hsound.shaped.length_of_leads hleads hnode]
    exact hsound.within path ⟨id, node, hleads, hnode, hterminal⟩

theorem Sound.check_eq (hsound : Sound order config index) : index.check = .ok () := by
  unfold check
  rw [hsound.order_eq]
  exact hsound.sorted.audit_eq hsound.shaped

/-- Throughout a run the trie is well formed, and a check of the index passes. -/
theorem run_wellFormed (order : Order α) [Std.TransCmp order] (config : Config)
    (recorder : Recorder) (calls : List (Call α)) :
    (run order config recorder calls).trie.WellFormed order config.maxSetSize.toNat ∧
      (run order config recorder calls).check = .ok () := by
  have hsound := run_sound order config recorder calls
  exact ⟨hsound.wellFormed, hsound.check_eq⟩

theorem run_wellFormed_digitCalls :
    (run Order.byLastDigit .default .silent digitCalls).trie.nodeCount = 3 ∧
      (run Order.byLastDigit .default .silent digitCalls).trie.WellFormed
        Order.byLastDigit Config.default.maxSetSize.toNat ∧
      (run Order.byLastDigit .default .silent digitCalls).check = .ok () :=
  ⟨by decide +kernel, run_wellFormed Order.byLastDigit .default .silent digitCalls⟩

end Index

end Containment
