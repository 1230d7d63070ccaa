import Containment.Proofs.Canonical
import Containment.Proofs.Order.Lexicographic
import Containment.Proofs.Trie.Collection
import Containment.Proofs.Trie.Generations

namespace Containment

variable {α : Type} {order : Order α}

namespace Order

/-! A family of sequences, told by the beginnings that its members have. -/

/-- The beginnings of one length, one of each class, in the order of sequences. The empty
beginning is there even where there is no sequence. -/
def fronts (order : Order α) (sets : List (List α)) : Nat → List (List α)
  | 0 => [[]]
  | length + 1 =>
      Canonical.arrange order.sequences
        ((sets.filter fun keys => length < keys.length).map (List.take (length + 1)))

/-- The beginnings that go on from one by an element. -/
def extensions (order : Order α) (sets : List (List α)) (front : List α) : List (List α) :=
  (order.fronts sets (front.length + 1)).filter fun longer =>
    order.sequences.equivalent longer.dropLast front

/-- Some sequence goes on from a beginning. -/
def goesOn (order : Order α) (sets : List (List α)) (front : List α) : Bool :=
  sets.any fun keys =>
    front.length < keys.length && order.sequences.equivalent (keys.take front.length) front

def longest (sets : List (List α)) : Nat :=
  sets.foldr (fun keys length => max keys.length length) 0

theorem goesOn_iff {sets : List (List α)} {front : List α} :
    order.goesOn sets front = true ↔ ∃ keys ∈ sets, front.length < keys.length ∧
      order.Agree (keys.take front.length) front := by
  simp only [goesOn, List.any_eq_true, Bool.and_eq_true, decide_eq_true_eq, equivalent_eq_true,
    sequences_eq_iff]

theorem length_le_longest {sets : List (List α)} {keys : List α} (hkeys : keys ∈ sets) :
    keys.length ≤ longest sets := by
  induction sets with
  | nil => contradiction
  | cons first sets induction =>
      rcases List.mem_cons.mp hkeys with rfl | hlater
      · exact Nat.le_max_left _ _
      · exact Nat.le_trans (induction hlater) (Nat.le_max_right _ _)

theorem exists_longest (sets : List (List α)) (hpos : 0 < longest sets) :
    ∃ keys ∈ sets, keys.length = longest sets := by
  induction sets with
  | nil => contradiction
  | cons first sets induction =>
      have hlongest : longest (first :: sets) = max first.length (longest sets) := rfl
      by_cases hfirst : longest sets ≤ first.length
      · exact ⟨first, List.mem_cons_self, by omega⟩
      · obtain ⟨keys, hkeys, hlength⟩ := induction (by omega)
        exact ⟨keys, List.mem_cons_of_mem first hkeys, by omega⟩

section

variable [Std.TransCmp order] {sets : List (List α)} {front : List α} {length : Nat}

theorem fronts_ascend : order.sequences.Ascends (order.fronts sets length) := by
  cases length with
  | zero => exact ascends_singleton []
  | succ length => exact Canonical.arrange_ascends _

/-- A beginning is that of a member, as the member has it. -/
theorem exists_of_mem_fronts (hfront : front ∈ order.fronts sets (length + 1)) :
    ∃ keys ∈ sets, length < keys.length ∧ front = keys.take (length + 1) := by
  obtain ⟨before, after, heq, _⟩ := Canonical.foremost_of_mem_arrange hfront
  have hmem : front ∈ (sets.filter fun keys => length < keys.length).map
      (List.take (length + 1)) := by
    rw [heq]
    simp
  obtain ⟨keys, hkeys, rfl⟩ := List.mem_map.mp hmem
  obtain ⟨hmember, hlonger⟩ := List.mem_filter.mp hkeys
  exact ⟨keys, hmember, of_decide_eq_true hlonger, rfl⟩

theorem length_of_mem_fronts (hfront : front ∈ order.fronts sets length) :
    front.length = length := by
  cases length with
  | zero => rw [List.mem_singleton.mp hfront, List.length_nil]
  | succ length =>
      obtain ⟨keys, _, hlonger, rfl⟩ := exists_of_mem_fronts hfront
      exact List.length_take_of_le hlonger

/-- Every member has its beginning of a length, or one that agrees with it. -/
theorem exists_mem_fronts {keys : List α} (hkeys : keys ∈ sets) (hlength : length ≤ keys.length) :
    ∃ front ∈ order.fronts sets length, order.Agree front (keys.take length) := by
  cases length with
  | zero => exact ⟨[], List.mem_singleton.mpr rfl, agree_nil⟩
  | succ length =>
      have hmem : keys.take (length + 1) ∈
          (sets.filter fun keys => length < keys.length).map (List.take (length + 1)) :=
        List.mem_map_of_mem (List.mem_filter.mpr ⟨hkeys, decide_eq_true hlength⟩)
      have hclass : order.sequences.classOf (keys.take (length + 1)) ∈
          order.sequences.classes (order.fronts sets (length + 1)) := by
        rw [fronts, Canonical.classes_arrange]
        exact mem_classes.mpr ⟨_, hmem, Std.ReflCmp.compare_self⟩
      obtain ⟨front, hfront, heq⟩ := mem_classes.mp hclass
      exact ⟨front, hfront, (sequences_eq_iff.mp heq).symm⟩

/-- The beginnings of a length are all without a continuation only at the greatest length. -/
theorem fronts_end_iff (hlength : length ≤ longest sets) :
    (∀ front ∈ order.fronts sets length, order.goesOn sets front = false) ↔
      length = longest sets := by
  constructor
  · intro hends
    by_contra hne
    obtain ⟨keys, hkeys, hlongest⟩ := exists_longest sets (by omega)
    obtain ⟨front, hfront, hagree⟩ : ∃ front ∈ order.fronts sets length,
        order.Agree front (keys.take length) := exists_mem_fronts hkeys (by omega)
    obtain rfl := length_of_mem_fronts hfront
    have hgoes : order.goesOn sets front = true :=
      goesOn_iff.mpr ⟨keys, hkeys, by omega, hagree.symm⟩
    rw [hends front hfront] at hgoes
    contradiction
  · rintro rfl front hfront
    by_contra hgoes
    obtain ⟨keys, hkeys, hlonger, _⟩ := goesOn_iff.mp (Bool.not_eq_false _ ▸ hgoes)
    have hle := length_le_longest hkeys
    have hlength := length_of_mem_fronts hfront
    omega

end

end Order

namespace Trie

variable {trie : Trie α}

/-! The rows of a dump are in the order of sequences too, since the paths to the nodes of one
row are equally long. -/

theorem Shaped.pathOf_childrenAt (hshaped : trie.Shaped) {id : Nat} {node : Node α}
    (hnode : trie.node id = .ok node) :
    (trie.childrenAt id).map trie.pathOf =
      node.branches.map fun branch => trie.pathOf id ++ [branch.key] := by
  rw [childrenAt_of_node hnode, Node.children, List.map_map]
  apply List.map_congr_left
  intro branch hbranch
  exact hshaped.pathOf_child hnode hbranch

section Rows

variable [Std.TransCmp order] (hsorted : Sorted order trie)
include hsorted

theorem Sorted.extended_ascend {id : Nat} {node : Node α} (hnode : trie.node id = .ok node)
    (keys : List α) :
    order.sequences.Ascends (node.branches.map fun branch => keys ++ [branch.key]) := by
  have hsiblings := hsorted.siblings id node hnode
  rw [Order.Ascends, List.pairwise_map] at hsiblings ⊢
  refine hsiblings.imp ?_
  intro left right hlt
  rw [Order.sequences_append_left]
  exact Order.sequences_of_lt hlt [] []

variable (hshaped : trie.Shaped)
include hshaped

private theorem Sorted.children_ascend {depth : Nat} {generation : List NodeId}
    (hat : trie.AtDepth depth generation)
    (hascends : order.sequences.Ascends (generation.map trie.pathOf)) :
    order.sequences.Ascends ((generation.flatMap trie.childrenAt).map trie.pathOf) := by
  rw [List.map_flatMap]
  refine List.pairwise_flatMap.mpr ⟨?_, ?_⟩
  · intro id hid
    obtain ⟨node, hnode, _⟩ := hat id hid
    rw [hshaped.pathOf_childrenAt hnode]
    exact hsorted.extended_ascend hnode _
  · rw [Order.Ascends, List.pairwise_map] at hascends
    refine hascends.imp_of_mem ?_
    intro left right hleft hright hlt leftKeys hleftKeys rightKeys hrightKeys
    obtain ⟨leftNode, hleftNode, hleftDepth⟩ := hat left hleft
    obtain ⟨rightNode, hrightNode, hrightDepth⟩ := hat right hright
    rw [hshaped.pathOf_childrenAt hleftNode] at hleftKeys
    rw [hshaped.pathOf_childrenAt hrightNode] at hrightKeys
    obtain ⟨leftBranch, _, rfl⟩ := List.mem_map.mp hleftKeys
    obtain ⟨rightBranch, _, rfl⟩ := List.mem_map.mp hrightKeys
    refine Order.sequences_append_of_lt ?_ hlt _ _
    rw [hshaped.length_pathOf hleftNode, hshaped.length_pathOf hrightNode, hleftDepth,
      hrightDepth]

theorem Sorted.rowsFrom_ascend {budget depth : Nat} {generation row : List NodeId}
    (hat : trie.AtDepth depth generation)
    (hascends : order.sequences.Ascends (generation.map trie.pathOf))
    (hrow : row ∈ trie.rowsFrom budget generation) :
    order.sequences.Ascends (row.map trie.pathOf) := by
  fun_induction rowsFrom trie budget generation generalizing depth with
  | case1 => contradiction
  | case2 => contradiction
  | case3 budget generation _ induction =>
      rcases List.mem_cons.mp hrow with rfl | hlater
      · exact hascends
      · exact induction (hshaped.atDepth_children hat)
          (hsorted.children_ascend hshaped hat hascends) hlater

theorem Sorted.rows_ascend {row : List NodeId} (hrow : row ∈ trie.rows) :
    order.sequences.Ascends (row.map trie.pathOf) :=
  hsorted.rowsFrom_ascend hshaped hshaped.atDepth_root (Order.ascends_singleton _) hrow

end Rows

/-! In a trie in order the beginnings of the stored sequences are the paths of the nodes. -/

namespace Orderly

variable (horderly : Orderly order trie)
include horderly

/-- The deepest node ends a longest stored sequence. -/
theorem length_rows : trie.rows.length = Order.longest (trie.storedBelow root) + 1 := by
  have hdumped := horderly.shaped.dumpedOnce
  apply Nat.le_antisymm
  · obtain ⟨id, node, hnode, hdepth⟩ := hdumped.reached
    by_cases hroot : id = root
    · obtain ⟨first, hfirst, _, hzero, _⟩ := horderly.shaped.rooted
      rw [hroot] at hnode
      rw [node_unique hnode hfirst] at hdepth
      omega
    · obtain ⟨rest, hstores⟩ := horderly.exists_stores
        (horderly.shaped.leads_pathOf (lt_size_of_node hnode)) hroot
      have hle := Order.length_le_longest
        (horderly.shaped.mem_storedBelow_root_iff.mpr hstores)
      rw [List.length_append, horderly.shaped.length_pathOf hnode] at hle
      omega
  · by_cases hpos : 0 < Order.longest (trie.storedBelow root)
    · obtain ⟨keys, hkeys, hlength⟩ := Order.exists_longest _ hpos
      obtain ⟨id, node, hleads, hnode, _⟩ := horderly.shaped.mem_storedBelow_root_iff.mp hkeys
      have hlt := hdumped.bounded id node hnode
      rw [horderly.shaped.length_of_leads hleads hnode] at hlt
      omega
    · obtain ⟨first, hfirst, _⟩ := horderly.shaped.rooted
      have hlt := hdumped.bounded root first hfirst
      omega

variable [Std.TransCmp order]

private theorem leads_of_mem_fronts {keys : List α} {length : Nat}
    (hfront : keys ∈ order.fronts (trie.storedBelow root) length) :
    ∃ id, trie.Leads root keys id := by
  cases length with
  | zero =>
      obtain ⟨_, hroot, _⟩ := horderly.shaped.rooted
      rw [List.mem_singleton.mp hfront]
      exact ⟨root, .here hroot⟩
  | succ length =>
      obtain ⟨stored, hstored, _, rfl⟩ := Order.exists_of_mem_fronts hfront
      obtain ⟨_, _, hleads, _⟩ := horderly.shaped.mem_storedBelow_root_iff.mp hstored
      obtain ⟨middle, hmiddle, _⟩ := hleads.split_at (length + 1)
      exact ⟨middle, hmiddle⟩

theorem mem_fronts_iff {keys : List α} {length : Nat} :
    keys ∈ order.fronts (trie.storedBelow root) length ↔
      keys.length = length ∧ ∃ id, trie.Leads root keys id := by
  constructor
  · exact fun hfront =>
      ⟨Order.length_of_mem_fronts hfront, horderly.leads_of_mem_fronts hfront⟩
  · rintro ⟨rfl, id, hleads⟩
    by_cases hroot : id = root
    · obtain ⟨node, hnode, _⟩ := horderly.shaped.rooted
      rw [hroot] at hleads
      rw [horderly.shaped.leads_unique hleads (.here hnode)]
      exact List.mem_singleton.mpr rfl
    · obtain ⟨rest, hstores⟩ := horderly.exists_stores hleads hroot
      obtain ⟨front, hfront, hagree⟩ : ∃ front ∈ order.fronts (trie.storedBelow root) keys.length,
          order.Agree front ((keys ++ rest).take keys.length) :=
        Order.exists_mem_fronts (horderly.shaped.mem_storedBelow_root_iff.mpr hstores) (by simp)
      rw [List.take_left] at hagree
      -- in the trie the beginnings that agree are one
      obtain ⟨other, hother⟩ := horderly.leads_of_mem_fronts hfront
      obtain ⟨rfl, _⟩ := horderly.sorted.leads_agree_unique hother hleads hagree
      exact hfront

theorem fronts_eq {row : List NodeId} {depth : Nat} (hrow : trie.rows[depth]? = some row) :
    order.fronts (trie.storedBelow root) depth = row.map trie.pathOf := by
  apply Order.fronts_ascend.eq_of_mem_iff
    (horderly.sorted.rows_ascend horderly.shaped (List.mem_of_getElem? hrow))
  intro keys
  simp only [horderly.mem_fronts_iff, List.mem_map,
    horderly.shaped.dumpedOnce.ranked depth row hrow]
  constructor
  · rintro ⟨hlength, id, hleads⟩
    obtain ⟨node, hnode⟩ := hleads.finish_node
    exact ⟨id, ⟨node, hnode, by rw [horderly.shaped.length_of_leads hleads hnode, hlength]⟩,
      horderly.shaped.pathOf_of_leads hleads⟩
  · rintro ⟨id, ⟨node, hnode, hdepth⟩, rfl⟩
    exact ⟨by rw [horderly.shaped.length_pathOf hnode, hdepth], id,
      horderly.shaped.leads_pathOf (lt_size_of_node hnode)⟩

theorem extensions_eq {id : Nat} {node : Node α} (hnode : trie.node id = .ok node) :
    order.extensions (trie.storedBelow root) (trie.pathOf id) =
      node.branches.map fun branch => trie.pathOf id ++ [branch.key] := by
  have hleads := horderly.shaped.leads_pathOf (lt_size_of_node hnode)
  apply Order.Ascends.eq_of_mem_iff (Order.fronts_ascend.sublist List.filter_sublist)
    (horderly.sorted.extended_ascend hnode _)
  intro keys
  rw [List.mem_filter, horderly.mem_fronts_iff, Order.equivalent_eq_true, Order.sequences_eq_iff,
    List.mem_map]
  constructor
  · rintro ⟨⟨hlength, other, hother⟩, hagree⟩
    cases keys using List.reverseRecOn with
    | nil => contradiction
    | append_singleton front key =>
        rw [List.dropLast_concat] at hagree
        obtain ⟨middle, hfront, hlast⟩ := hother.split
        obtain ⟨rfl, rfl⟩ := horderly.sorted.leads_agree_unique hfront hleads hagree
        cases hlast with
        | down hfound hbranch _ =>
            obtain rfl := node_unique hfound hnode
            exact ⟨_, hbranch, by simp⟩
  · rintro ⟨branch, hbranch, rfl⟩
    refine ⟨⟨by simp, branch.child, hleads.snoc horderly.shaped hnode hbranch⟩, ?_⟩
    rw [List.dropLast_concat]
    exact Order.Agree.refl _

/-- Stored sequences go on from the path to a node exactly where the node has children. -/
theorem goesOn_pathOf {id : Nat} {node : Node α} (hnode : trie.node id = .ok node) :
    order.goesOn (trie.storedBelow root) (trie.pathOf id) = !node.isLeaf := by
  have hleads := horderly.shaped.leads_pathOf (lt_size_of_node hnode)
  rw [Bool.eq_iff_iff, Order.goesOn_iff, Bool.not_eq_true', Node.isLeaf,
    List.isEmpty_eq_false_iff]
  constructor
  · rintro ⟨keys, hkeys, hlength, hagree⟩
    obtain ⟨_, _, hstored, _⟩ := horderly.shaped.mem_storedBelow_root_iff.mp hkeys
    obtain ⟨middle, hfront, hback⟩ := hstored.split_at (trie.pathOf id).length
    rw [List.drop_eq_getElem_cons hlength] at hback
    generalize keys[(trie.pathOf id).length] = key at hback
    obtain ⟨_, rfl⟩ := horderly.sorted.leads_agree_unique hfront hleads hagree
    cases hback with
    | down hfound hbranch _ =>
        obtain rfl := node_unique hfound hnode
        exact List.ne_nil_of_mem hbranch
  · intro hne
    obtain ⟨branch, hbranch⟩ := List.exists_mem_of_ne_nil _ hne
    obtain ⟨rest, hstores⟩ := horderly.exists_stores
      (hleads.snoc horderly.shaped hnode hbranch) (horderly.shaped.child_ne_root hnode hbranch)
    refine ⟨_, horderly.shaped.mem_storedBelow_root_iff.mpr hstores, by simp, ?_⟩
    rw [List.append_assoc, List.take_left]
    exact Order.Agree.refl _

/-- The path to a node is a stored sequence exactly where the node is terminal. -/
theorem any_equivalent_pathOf {id : Nat} {node : Node α} (hnode : trie.node id = .ok node) :
    (trie.storedBelow root).any (order.sequences.equivalent (trie.pathOf id)) =
      node.terminal := by
  rw [Bool.eq_iff_iff, horderly.sorted.terminal_iff
    (horderly.shaped.leads_pathOf (lt_size_of_node hnode)) (Order.Agree.refl _) hnode]
  simp only [List.any_eq_true, Order.equivalent_eq_true, Order.sequences_eq_iff,
    horderly.shaped.mem_storedBelow_root_iff]
  exact exists_congr fun keys =>
    and_congr_right fun _ => ⟨Order.Agree.symm, Order.Agree.symm⟩

end Orderly

end Trie

end Containment
