import Containment.Proofs.Order.Lawful
import Containment.Proofs.Trie.Change
import Containment.Proofs.Trie.SubsetSearch
import Containment.Proofs.Trie.SupersetSearch

namespace Containment.Trie

variable {α : Type} {trie : Trie α} {order : Order α}

/-! What an audit says of any trie in shape, whether or not the order had a part in
its making. What is amiss at a node is told by looking at it and at its parent. -/

/-- The key of the node is not above that of its parent. -/
def StandsLow (order : Order α) (trie : Trie α) (id : NodeId) : Prop :=
  ∃ (node : Node α) (key : α) (parent : Nat) (owner : Node α) (above : α),
    trie.node id = .ok node ∧ node.origin = some { key, parent } ∧
      trie.node parent = .ok owner ∧ owner.key? = some above ∧ order above key ≠ .lt

def Disordered (order : Order α) (trie : Trie α) (id : NodeId) : Prop :=
  ∃ node, trie.node id = .ok node ∧ ¬ order.Ascends (node.branches.map Branch.key)

/-- The least number that has a property, or none if no number has it. -/
def IsFirst (amiss : NodeId → Prop) : Option NodeId → Prop
  | none => ∀ id, ¬ amiss id
  | some id => amiss id ∧ ∀ earlier, earlier < id → ¬ amiss earlier

section Verdicts

variable {amiss : NodeId → Prop} {test : NodeId → Node α → Except Fault Bool}

private theorem firstFailing_isFirst {start : Nat} {nodes : List (Node α)}
    (hdecides : ∀ (offset : Nat) node, nodes[offset]? = some node →
      ∃ passed, test (start + offset) node = .ok passed ∧
        (passed = false ↔ amiss (start + offset)))
    (hbefore : ∀ id, id < start → ¬ amiss id)
    (hbeyond : ∀ id, start + nodes.length ≤ id → ¬ amiss id) :
    ∃ verdict, firstFailing test start nodes = .ok verdict ∧ IsFirst amiss verdict := by
  induction nodes generalizing start with
  | nil =>
      refine ⟨none, rfl, ?_⟩
      intro id
      by_cases hlt : id < start
      · exact hbefore id hlt
      · exact hbeyond id (Nat.le_of_not_lt hlt)
  | cons node rest induction =>
      obtain ⟨passed, htest, hiff⟩ := hdecides 0 node rfl
      rw [Nat.add_zero] at htest hiff
      cases passed with
      | false =>
          refine ⟨some start, ?_, hiff.mp rfl, hbefore⟩
          simp only [firstFailing, htest, Except.ok_bind, Bool.false_eq_true, if_false]
          rfl
      | true =>
          have hsound : ¬ amiss start := fun hamiss => by
            have hfalse := hiff.mpr hamiss
            contradiction
          obtain ⟨verdict, hverdict, hfirst⟩ := @induction (start + 1) (by
              intro offset later hlater
              rw [Nat.add_assoc, Nat.add_comm 1]
              exact hdecides (offset + 1) later hlater) (by
              intro id hlt
              rcases Nat.lt_succ_iff_lt_or_eq.mp hlt with hearlier | rfl
              · exact hbefore id hearlier
              · exact hsound) (by
              intro id hle
              apply hbeyond id
              rw [List.length_cons]
              omega)
          refine ⟨verdict, ?_, hfirst⟩
          simp only [firstFailing, htest, Except.ok_bind, if_true, hverdict]

/-- A test that tells of each node whether it is amiss finds the first that is. -/
private theorem exists_verdict
    (hdecides : ∀ (id : Nat) node, trie.node id = .ok node →
      ∃ passed, test id node = .ok passed ∧ (passed = false ↔ amiss id))
    (hwithin : ∀ id, amiss id → id < trie.nodes.size) :
    ∃ verdict, firstFailing test root trie.nodes.toList = .ok verdict ∧
      IsFirst amiss verdict := by
  apply firstFailing_isFirst
  · intro offset node hnode
    rw [Array.getElem?_toList] at hnode
    rw [root, Nat.zero_add]
    exact hdecides offset node (node_eq_ok_iff.mpr hnode)
  · exact fun id hlt => absurd hlt (Nat.not_lt_zero id)
  · intro id hle hamiss
    rw [root, Nat.zero_add, Array.length_toList] at hle
    exact absurd (hwithin id hamiss) (Nat.not_lt_of_le hle)

private theorem lt_size_of_standsLow {id : NodeId} (hlow : StandsLow order trie id) :
    id < trie.nodes.size := by
  obtain ⟨node, _, _, _, _, hnode, _⟩ := hlow
  exact lt_size_of_node hnode

private theorem lt_size_of_disordered {id : NodeId} (hdisordered : Disordered order trie id) :
    id < trie.nodes.size := by
  obtain ⟨node, hnode, _⟩ := hdisordered
  exact lt_size_of_node hnode

namespace Shaped

variable {id : Nat} {node : Node α}

private theorem ascendsAt_decides (hshaped : trie.Shaped) (order : Order α)
    (hnode : trie.node id = .ok node) :
    ∃ passed, trie.ascendsAt order node = .ok passed ∧
      (passed = false ↔ StandsLow order trie id) := by
  cases horigin : node.origin with
  | none =>
      refine ⟨true, by rw [ascendsAt, horigin]; rfl, ?_⟩
      refine ⟨fun hfalse => by contradiction, ?_⟩
      rintro ⟨found, key, parent, _, _, hfound, hhangs, _⟩
      rw [node_unique hfound hnode, horigin] at hhangs
      contradiction
  | some origin =>
      have hne : id ≠ root := by
        rintro rfl
        rw [hshaped.origin_of_root hnode] at horigin
        contradiction
      obtain ⟨key, parent, owner, hhangs, _, howner, _⟩ := hshaped.hung id node hnode hne
      rw [horigin] at hhangs
      cases hhangs
      have hlook : trie.ascendsAt order node =
          .ok ((owner.key?.map fun above => order above key == .lt).getD true) := by
        simp only [ascendsAt, horigin, howner, Except.ok_bind]
        rfl
      refine ⟨_, hlook, ?_⟩
      constructor
      · intro hfails
        cases habove : owner.key? with
        | none =>
            rw [habove] at hfails
            contradiction
        | some above =>
            rw [habove] at hfails
            exact ⟨node, key, parent, owner, above, hnode, horigin, howner, habove,
              beq_eq_false_iff_ne.mp hfails⟩
      · rintro ⟨found, otherKey, otherParent, otherOwner, above, hfound, hhangs, hother, habove,
          hlow⟩
        rw [node_unique hfound hnode, horigin] at hhangs
        cases hhangs
        rw [node_unique howner hother, habove]
        exact beq_eq_false_iff_ne.mpr hlow

theorem pathFlaw_isFirst (hshaped : trie.Shaped) (order : Order α) :
    ∃ verdict, trie.pathFlaw order = .ok verdict ∧
      IsFirst (StandsLow order trie) verdict :=
  exists_verdict (fun _ _ hnode => hshaped.ascendsAt_decides order hnode)
    fun _ => lt_size_of_standsLow

variable [Std.TransCmp order]

private theorem branchesSoundAt_decides (hshaped : trie.Shaped)
    (hnode : trie.node id = .ok node) :
    ∃ passed, trie.branchesSoundAt order id node = .ok passed ∧
      (passed = false ↔ Disordered order trie id) := by
  have hlinks : node.branches.mapM (trie.linked order id) =
      .ok (node.branches.map fun _ => true) :=
    Except.mapM_eq_ok fun branch hbranch => hshaped.linked_eq hnode hbranch
  have hlook : trie.branchesSoundAt order id node =
      .ok (order.ascending (node.branches.map Branch.key)) := by
    simp only [branchesSoundAt, hlinks, Except.ok_bind]
    simp [pure, Except.pure]
  refine ⟨_, hlook, ?_⟩
  rw [← Bool.not_eq_true, Order.ascending_eq_true_iff]
  constructor
  · exact fun hnot => ⟨node, hnode, hnot⟩
  · rintro ⟨found, hfound, hnot⟩
    rwa [node_unique hfound hnode] at hnot

theorem branchFlaw_isFirst (hshaped : trie.Shaped) :
    ∃ verdict, trie.branchFlaw order = .ok verdict ∧
      IsFirst (Disordered order trie) verdict :=
  exists_verdict (fun _ _ hnode => hshaped.branchesSoundAt_decides hnode)
    fun _ => lt_size_of_disordered

end Shaped

end Verdicts

/-! From neighbours to the whole: where no node stands low all paths ascend. -/

namespace Shaped

variable {id : Nat}

private theorem origin_of_leads (hshaped : trie.Shaped) {keys : List α} {last : α}
    {node : Node α} (hleads : trie.Leads root (keys ++ [last]) id)
    (hnode : trie.node id = .ok node) :
    ∃ middle, trie.Leads root keys middle ∧
      node.origin = some { key := last, parent := middle } := by
  obtain ⟨middle, found, hfront, hfound, horigin⟩ := hleads.exists_origin hshaped
  rw [node_unique hfound hnode] at horigin
  exact ⟨middle, hfront, horigin⟩

private theorem leads_ascends_of_not_standsLow [Std.TransCmp order] (hshaped : trie.Shaped)
    (hnone : ∀ id, ¬ StandsLow order trie id) {keys : List α}
    (hleads : trie.Leads root keys id) : order.Ascends keys := by
  induction keys using List.reverseRecOn generalizing id with
  | nil => exact Order.ascends_nil
  | append_singleton keys key induction =>
      obtain ⟨node, hnode⟩ := hleads.finish_node
      obtain ⟨parent, hfront, horigin⟩ := hshaped.origin_of_leads hleads hnode
      have hascends := induction hfront
      cases keys using List.reverseRecOn with
      | nil => exact Order.ascends_singleton key
      | append_singleton keys last =>
          obtain ⟨owner, howner⟩ := hfront.finish_node
          have habove : owner.key? = some last := by
            rw [hshaped.key?_eq_getLast? hfront howner, List.getLast?_concat]
          refine hascends.snoc ?_
          by_contra hlow
          exact hnone id
            ⟨node, key, parent, owner, last, hnode, horigin, howner, habove, hlow⟩

private theorem not_standsLow_of_ascends (hshaped : trie.Shaped)
    (hascends : ∀ (id : Nat) keys, trie.Leads root keys id → order.Ascends keys) (id : NodeId) :
    ¬ StandsLow order trie id := by
  rintro ⟨node, key, parent, owner, above, hnode, horigin, howner, habove, hlow⟩
  obtain ⟨keys, hleads⟩ := hshaped.exists_leads (lt_size_of_node hnode)
  cases keys using List.reverseRecOn with
  | nil =>
      cases hleads
      rw [hshaped.origin_of_root hnode] at horigin
      contradiction
  | append_singleton front last =>
      obtain ⟨middle, hfront, hlast⟩ := hshaped.origin_of_leads hleads hnode
      rw [horigin] at hlast
      cases hlast
      rw [hshaped.key?_eq_getLast? hfront howner] at habove
      obtain ⟨upper, rfl⟩ := List.getLast?_eq_some_iff.mp habove
      have hboth := hascends id _ hleads
      rw [List.append_assoc] at hboth
      exact hlow (hboth.of_append_right.head_lt List.mem_cons_self)

theorem not_standsLow_iff [Std.TransCmp order] (hshaped : trie.Shaped) :
    (∀ id, ¬ StandsLow order trie id) ↔
      ∀ id : Nat, id < trie.nodes.size →
        ∃ path, trie.pathTo id = .ok path ∧ order.Ascends path := by
  constructor
  · intro hnone id hid
    obtain ⟨path, hleads⟩ := hshaped.exists_leads hid
    exact ⟨path, hshaped.pathTo_of_leads hleads,
      hshaped.leads_ascends_of_not_standsLow hnone hleads⟩
  · intro hpaths
    apply hshaped.not_standsLow_of_ascends
    intro id keys hleads
    obtain ⟨node, hnode⟩ := hleads.finish_node
    obtain ⟨path, hpath, hascends⟩ := hpaths id (lt_size_of_node hnode)
    rwa [hshaped.leads_unique hleads (hshaped.pathTo_eq_ok_iff.mp hpath)]

theorem sorted_of_flawless (hshaped : trie.Shaped)
    (hpaths : ∀ id, ¬ StandsLow order trie id)
    (hbranches : ∀ id, ¬ Disordered order trie id) : Sorted order trie where
  siblings := by
    intro id node hnode
    by_contra hnot
    exact hbranches id ⟨node, hnode, hnot⟩
  above := by
    intro id node key branch hnode hkey hbranch
    obtain ⟨child, hchild, horigin⟩ := hshaped.linked id node branch hnode hbranch
    by_contra hlow
    exact hpaths branch.child ⟨child, branch.key, id, node, key, hchild, horigin, hnode, hkey, hlow⟩

end Shaped

/-! A trie in which searches answer as they should, in the words of its own nodes:
the stored paths are those of the terminal nodes. -/

def StoredPath (trie : Trie α) (keys : List α) : Prop :=
  ∃ (id : Nat) (node : Node α),
    trie.node id = .ok node ∧ node.terminal = true ∧ trie.pathTo id = .ok keys

structure Searchable (order : Order α) (trie : Trie α) : Prop where
  /-- What is found is the one node whose path agrees. -/
  found_iff : ∀ path (id : Nat), trie.findPath order path = .ok (some id) ↔
    ∃ keys, trie.pathTo id = .ok keys ∧ order.Agree keys path
  missing_iff : ∀ path, trie.findPath order path = .ok none ↔
    ∀ (id : Nat) keys, trie.pathTo id = .ok keys → ¬ order.Agree keys path
  subsets : ∀ query : Canonical α, order.Ascends query.elements →
    ∃ findings, trie.properSubsets order query = .ok findings ∧
      (findings.sets.Pairwise fun left right => ¬ order.Agree left right) ∧
      ∀ keys, keys ∈ findings.sets ↔
        trie.StoredPath keys ∧ order.ProperlyIncluded keys query.elements
  supersets : ∀ query : Canonical α, order.Ascends query.elements →
    ∃ findings, trie.properSupersets order query = .ok findings ∧
      (findings.sets.Pairwise fun left right => ¬ order.Agree left right) ∧
      ∀ keys, keys ∈ findings.sets ↔
        trie.StoredPath keys ∧ order.ProperlyIncluded query.elements keys

section Searchable

variable [Std.TransCmp order]

theorem Shaped.stores_iff_storedPath (hshaped : trie.Shaped) {keys : List α} :
    trie.Stores keys ↔ trie.StoredPath keys := by
  constructor
  · rintro ⟨id, node, hleads, hnode, hterminal⟩
    exact ⟨id, node, hnode, hterminal, hshaped.pathTo_of_leads hleads⟩
  · rintro ⟨id, node, hnode, hterminal, hpath⟩
    exact ⟨id, node, hshaped.pathTo_eq_ok_iff.mp hpath, hnode, hterminal⟩

/-- Whatever is picked from the stored sequences is picked from the stored paths,
and no two of what is picked agree. -/
private theorem Sorted.picked (hshaped : trie.Shaped) (hsorted : Sorted order trie)
    {fits : List α → Prop} [DecidablePred fits] {found : List (List α)}
    (hperm : found.Perm ((trie.storedBelow root).filter fun keys => decide (fits keys))) :
    (found.Pairwise fun left right => ¬ order.Agree left right) ∧
      ∀ keys, keys ∈ found ↔ trie.StoredPath keys ∧ fits keys := by
  constructor
  · have hdiffer := (hsorted.storedBelow_pairwise hshaped hshaped.size_pos).filter
      fun keys => decide (fits keys)
    exact hdiffer.perm hperm.symm fun hleft hright => hleft hright.symm
  · intro keys
    rw [hperm.mem_iff, List.mem_filter, hshaped.mem_storedBelow_root_iff,
      hshaped.stores_iff_storedPath, decide_eq_true_iff]

theorem Sorted.searchable (hshaped : trie.Shaped) (hsorted : Sorted order trie) :
    Searchable order trie where
  found_iff := by
    intro path id
    simp only [hsorted.findPath_eq_some_iff hshaped, hshaped.pathTo_eq_ok_iff]
  missing_iff := by
    intro path
    simp only [hsorted.findPath_eq_none_iff hshaped, hshaped.pathTo_eq_ok_iff]
    constructor
    · exact fun hnone id keys hleads hagree => hnone ⟨keys, id, hleads, hagree⟩
    · rintro hnone ⟨keys, id, hleads, hagree⟩
      exact hnone id keys hleads hagree
  subsets := by
    intro query hquery
    obtain ⟨findings, hfound, hperm⟩ := hsorted.properSubsets_perm hshaped hquery
    exact ⟨findings, hfound, hsorted.picked hshaped hperm⟩
  supersets := by
    intro query hquery
    obtain ⟨findings, hfound, hsets⟩ := hsorted.properSupersets_eq hshaped hquery
    exact ⟨findings, hfound, hsorted.picked hshaped (List.Perm.of_eq hsets)⟩

end Searchable

/-! The audit as a whole, first for any trie in shape. -/

structure Auditable (order : Order α) (trie : Trie α) : Prop where
  path_verdict : ∃ verdict, trie.pathFlaw order = .ok verdict ∧
    IsFirst (StandsLow order trie) verdict
  branch_verdict : ∃ verdict, trie.branchFlaw order = .ok verdict ∧
    IsFirst (Disordered order trie) verdict
  passes_iff : trie.pathFlaw order = .ok none ∧ trie.branchFlaw order = .ok none ↔
    (∀ id : Nat, id < trie.nodes.size →
      ∃ path, trie.pathTo id = .ok path ∧ order.Ascends path) ∧
    ∀ (id : Nat) node, trie.node id = .ok node →
      order.Ascends (node.branches.map Branch.key)
  certifies : trie.pathFlaw order = .ok none → trie.branchFlaw order = .ok none →
    Searchable order trie

/-- A verdict names no node exactly when nothing is amiss. -/
private theorem verdict_none_iff {amiss : NodeId → Prop}
    {result : Except Fault (Option NodeId)}
    (hverdict : ∃ verdict, result = .ok verdict ∧ IsFirst amiss verdict) :
    result = .ok none ↔ ∀ id, ¬ amiss id := by
  obtain ⟨verdict, rfl, hfirst⟩ := hverdict
  cases verdict with
  | none => exact ⟨fun _ => hfirst, fun _ => rfl⟩
  | some id =>
      constructor
      · intro hnone
        cases hnone
      · exact fun hsound => absurd hfirst.1 (hsound id)

private theorem not_disordered_iff :
    (∀ id, ¬ Disordered order trie id) ↔ ∀ (id : Nat) node, trie.node id = .ok node →
      order.Ascends (node.branches.map Branch.key) := by
  constructor
  · intro hnone id node hnode
    by_contra hnot
    exact hnone id ⟨node, hnode, hnot⟩
  · rintro hbranches id ⟨node, hnode, hnot⟩
    exact hnot (hbranches id node hnode)

theorem Shaped.auditable [Std.TransCmp order] (hshaped : trie.Shaped) :
    Auditable order trie where
  path_verdict := hshaped.pathFlaw_isFirst order
  branch_verdict := hshaped.branchFlaw_isFirst
  passes_iff := by
    rw [verdict_none_iff (hshaped.pathFlaw_isFirst order),
      verdict_none_iff hshaped.branchFlaw_isFirst, hshaped.not_standsLow_iff,
      not_disordered_iff]
  certifies := by
    intro hpaths hbranches
    rw [verdict_none_iff (hshaped.pathFlaw_isFirst order)] at hpaths
    rw [verdict_none_iff hshaped.branchFlaw_isFirst] at hbranches
    exact (hshaped.sorted_of_flawless hpaths hbranches).searchable hshaped

/-- An audit under any lawful order tells how a trie stands to that order, whatever
comparisons it has grown under; if it passes, searches under the order are exact. -/
theorem grown_auditable (order : Order α) [Std.TransCmp order]
    (changes : List (Change α)) : Auditable order (grown changes) :=
  (grown_shaped changes).auditable

/-- Made under three comparisons, none of which is by the last digit. The second
change leaves a leaf that is not terminal, the last two break off. -/
def mixedChanges : List (Change Int) :=
  [.path Order.natural [1, 12, 23], .child (fun _ _ => .lt) 1 14,
    .path (fun _ _ => .eq) [], .path Order.natural [45, 42]]

theorem grown_auditable_mixedChanges :
    (grown mixedChanges).nodeCount = 5 ∧
      (grown mixedChanges).pathFlaw Order.byLastDigit = .ok none ∧
      (grown mixedChanges).branchFlaw Order.byLastDigit = .ok none ∧
      Auditable Order.byLastDigit (grown mixedChanges) ∧
      Searchable Order.byLastDigit (grown mixedChanges) :=
  have hpaths : (grown mixedChanges).pathFlaw Order.byLastDigit = .ok none := by
    decide +kernel
  have hbranches : (grown mixedChanges).branchFlaw Order.byLastDigit = .ok none := by
    decide +kernel
  have hauditable := grown_auditable Order.byLastDigit mixedChanges
  ⟨by decide +kernel, hpaths, hbranches, hauditable, hauditable.certifies hpaths hbranches⟩

/-- Under the order turned round the first node amiss is the second on a path. -/
example : (grown mixedChanges).pathFlaw Order.byLastDigit.reversed = .ok (some 2) := by
  decide +kernel

end Containment.Trie
