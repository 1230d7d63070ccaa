import Containment.Trie.Subsets
import Containment.Proofs.Order.Classes
import Containment.Proofs.Trie.Collection

namespace Containment

variable {α : Type} {order : Order α}

namespace Order

/-! What a sequence has left after the first element that is equivalent to a key. -/

def after (order : Order α) (key : α) : List α → Option (List α)
  | [] => none
  | element :: rest =>
      if order key element = .eq then some rest else order.after key rest

theorem after_cons_of_eq {key element : α} {rest : List α}
    (heq : order key element = .eq) : order.after key (element :: rest) = some rest := by
  rw [after, if_pos heq]

theorem after_cons_of_ne {key element : α} {rest : List α}
    (hne : order key element ≠ .eq) :
    order.after key (element :: rest) = order.after key rest := by
  rw [after, if_neg hne]

theorem after_eq_none {key : α} {elements : List α}
    (hnone : ∀ element ∈ elements, order key element ≠ .eq) :
    order.after key elements = none := by
  induction elements with
  | nil => rfl
  | cons element rest induction =>
      rw [after_cons_of_ne (hnone element List.mem_cons_self)]
      exact induction fun later hlater => hnone later (List.mem_cons_of_mem element hlater)

theorem exists_of_after {key : α} {elements rest : List α}
    (hafter : order.after key elements = some rest) :
    ∃ front element, elements = front ++ element :: rest ∧ order key element = .eq := by
  induction elements with
  | nil => contradiction
  | cons element later induction =>
      by_cases heq : order key element = .eq
      · rw [after_cons_of_eq heq] at hafter
        cases hafter
        exact ⟨[], element, rfl, heq⟩
      · rw [after_cons_of_ne heq] at hafter
        obtain ⟨front, found, rfl, hfound⟩ := induction hafter
        exact ⟨element :: front, found, rfl, hfound⟩

theorem Ascends.of_after {key : α} {elements rest : List α}
    (hascends : order.Ascends elements) (hafter : order.after key elements = some rest) :
    order.Ascends rest := by
  obtain ⟨front, element, rfl, _⟩ := exists_of_after hafter
  exact hascends.of_append_right.tail

section

variable [Std.TransCmp order]

/-- Among ascending sequences inclusion goes on behind the counterpart of the least
element. -/
theorem included_cons_iff_after {key : α} {keys elements : List α}
    (hkeys : order.Ascends (key :: keys)) (helements : order.Ascends elements) :
    order.Included (key :: keys) elements ↔
      ∃ rest, order.after key elements = some rest ∧ order.Included keys rest := by
  induction elements with
  | nil => simp [included_cons, after]
  | cons element rest induction =>
      by_cases heq : order key element = .eq
      · have hbelow : ∀ later ∈ keys, order element later = .lt := fun later hlater =>
          Std.TransCmp.lt_of_eq_of_lt (Std.OrientedCmp.eq_symm heq) (hkeys.head_lt hlater)
        rw [after_cons_of_eq heq, included_cons, included_cons_right_of_lt hbelow]
        simp [heq]
      · rw [after_cons_of_ne heq, ← induction helements.tail, included_cons, included_cons]
        constructor
        · intro hboth
          obtain ⟨⟨other, hother, hequivalent⟩, hincluded⟩ := hboth
          -- The counterpart is above `element`, and so are all keys that come later.
          have hrest := (List.mem_cons.mp hother).resolve_left
            fun hfirst => heq (hfirst ▸ hequivalent)
          have habove : order element key = .lt := Std.TransCmp.lt_of_lt_of_eq
            (helements.head_lt hrest) (Std.OrientedCmp.eq_symm hequivalent)
          have hbelow : ∀ later ∈ keys, order element later = .lt := fun later hlater =>
            Std.TransCmp.lt_trans habove (hkeys.head_lt hlater)
          exact ⟨⟨other, hrest, hequivalent⟩, (included_cons_right_of_lt hbelow).mp hincluded⟩
        · intro hboth
          obtain ⟨⟨other, hother, hequivalent⟩, hincluded⟩ := hboth
          refine ⟨⟨other, List.mem_cons_of_mem element hother, hequivalent⟩, ?_⟩
          intro later hlater
          obtain ⟨found, hfound, hlaterEq⟩ := hincluded later hlater
          exact ⟨found, List.mem_cons_of_mem element hfound, hlaterEq⟩

end

end Order

namespace Trie

/-! The two-pointer loop finds, for each branch in turn, the counterpart of its key. -/

def shareOf (order : Order α) (remaining : List α) (branch : Branch α) :
    Option (Shared α) :=
  (order.after branch.key remaining).map fun rest => { branch, remaining := rest }

theorem shareOf_cons_of_eq {element : α} {rest : List α} {branch : Branch α}
    (heq : order branch.key element = .eq) :
    shareOf order (element :: rest) branch = some { branch, remaining := rest } := by
  unfold shareOf
  rw [Order.after_cons_of_eq heq]
  rfl

section Merge

variable [Std.TransCmp order] {element : α} {rest : List α}

private theorem shareOf_cons_of_above {branch : Branch α}
    (habove : order element branch.key = .lt) :
    shareOf order (element :: rest) branch = shareOf order rest branch := by
  have hne : order branch.key element ≠ .eq := by
    rw [Std.OrientedCmp.gt_of_lt habove]
    decide
  unfold shareOf
  rw [Order.after_cons_of_ne hne]

private theorem shareOf_of_below {branch : Branch α} (hrest : order.Ascends (element :: rest))
    (hlt : order branch.key element = .lt) :
    shareOf order (element :: rest) branch = none := by
  have hnone : order.after branch.key (element :: rest) = none := by
    apply Order.after_eq_none
    intro later hlater
    rw [(hrest.cons_of_lt hlt).head_lt hlater]
    decide
  unfold shareOf
  rw [hnone]
  rfl

theorem sharedWith_eq {branches : List (Branch α)} {remaining : List α}
    (hbranches : order.Ascends (branches.map Branch.key))
    (hremaining : order.Ascends remaining) :
    sharedWith order branches remaining =
      branches.filterMap (shareOf order remaining) := by
  fun_induction sharedWith order branches remaining with
  | case1 => rfl
  | case2 branch branches =>
      symm
      apply List.filterMap_eq_nil_iff.mpr
      intro other _
      rfl
  | case3 branch branches element remaining hlt induction =>
      rw [List.filterMap_cons_none (shareOf_of_below hremaining hlt)]
      exact induction hbranches.tail hremaining
  | case4 branch branches element remaining hgt induction =>
      rw [induction hbranches hremaining.tail]
      apply List.filterMap_congr
      intro other hother
      have hfirst : order element branch.key = .lt := Std.OrientedCmp.lt_of_gt hgt
      have habove : order element other.key = .lt :=
        (hbranches.cons_of_lt hfirst).head_lt (List.mem_map_of_mem hother)
      exact (shareOf_cons_of_above habove).symm
  | case5 branch branches element remaining heq induction =>
      rw [List.filterMap_cons_some (shareOf_cons_of_eq heq),
        induction hbranches.tail hremaining.tail]
      congr 1
      apply List.filterMap_congr
      intro other hother
      have hlater : order branch.key other.key = .lt :=
        hbranches.head_lt (List.mem_map_of_mem hother)
      have habove : order element other.key = .lt :=
        Std.TransCmp.lt_of_eq_of_lt (Std.OrientedCmp.eq_symm heq) hlater
      exact (shareOf_cons_of_above habove).symm

theorem mem_sharedWith_iff {branches : List (Branch α)} {remaining : List α}
    (hbranches : order.Ascends (branches.map Branch.key))
    (hremaining : order.Ascends remaining) {shared : Shared α} :
    shared ∈ sharedWith order branches remaining ↔ shared.branch ∈ branches ∧
      order.after shared.branch.key remaining = some shared.remaining := by
  rw [sharedWith_eq hbranches hremaining, List.mem_filterMap]
  constructor
  · intro hshare
    obtain ⟨branch, hbranch, hshare⟩ := hshare
    obtain ⟨rest, hafter, rfl⟩ := Option.map_eq_some_iff.mp hshare
    exact ⟨hbranch, hafter⟩
  · intro hboth
    exact ⟨shared.branch, hboth.1, Option.map_eq_some_iff.mpr ⟨_, hboth.2, rfl⟩⟩

end Merge

theorem branch_sharedWith_sublist (order : Order α) (branches : List (Branch α))
    (remaining : List α) :
    ((sharedWith order branches remaining).map Shared.branch).Sublist branches := by
  fun_induction sharedWith order branches remaining with
  | case1 => exact .refl _
  | case2 => exact List.nil_sublist _
  | case3 branch branches _ _ _ induction => exact induction.cons branch
  | case4 _ _ _ _ _ induction => exact induction
  | case5 branch branches _ _ _ induction => exact induction.cons_cons branch

/-! A visit of the subset search, with the node reads taken out. -/

def leafAt (trie : Trie α) (id : NodeId) : Bool :=
  match trie.node id with
  | .ok node => node.isLeaf
  | .error _ => true

theorem leafAt_of_node {trie : Trie α} {id : NodeId} {node : Node α}
    (hnode : trie.node id = .ok node) : trie.leafAt id = node.isLeaf := by
  unfold leafAt
  rw [hnode]

/-- The stored sequence at a node itself, if it is shorter than the query. -/
def storedHere (trie : Trie α) (size : Nat) (id : NodeId) : List (List α) :=
  if trie.terminalAt id && (trie.pathOf id).length < size then [trie.pathOf id] else []

def shareNext (trie : Trie α) (shared : Shared α) : List (SubsetItem α) :=
  if shared.remaining.isEmpty || trie.leafAt shared.branch.child then []
  else [{ node := shared.branch.child, remaining := shared.remaining }]

section Visit

variable {trie : Trie α} {id : Nat} {node : Node α} {size : Nat}

private theorem mem_of_mem_sharedWith {branches : List (Branch α)} {remaining : List α}
    {shared : Shared α} (hshared : shared ∈ sharedWith order branches remaining) :
    shared.branch ∈ branches :=
  (branch_sharedWith_sublist order branches remaining).subset
    (List.mem_map_of_mem hshared)

theorem Shaped.subsetVisit_eq (hshaped : trie.Shaped) (order : Order α)
    {item : SubsetItem α} (hnode : trie.node item.node = .ok node) :
    trie.subsetVisit order size item = .ok
      { yields := (sharedWith order node.branches item.remaining).flatMap fun shared =>
          trie.storedHere size shared.branch.child
        next := ((sharedWith order node.branches item.remaining).map
          trie.shareNext).reverse.flatten } := by
  have hyield : ∀ shared ∈ sharedWith order node.branches item.remaining,
      trie.subsetYield size shared = .ok (trie.storedHere size shared.branch.child) := by
    intro shared hshared
    obtain ⟨child, hchild, _⟩ := hshaped.branch_child hnode (mem_of_mem_sharedWith hshared)
    unfold subsetYield storedHere
    rw [hchild, Except.ok_bind, terminalAt_of_node hchild, hshaped.length_pathOf hchild,
      hshaped.pathTo_eq (lt_size_of_node hchild)]
    split <;> rfl
  have hnext : ∀ shared ∈ sharedWith order node.branches item.remaining,
      trie.subsetNext shared = .ok (trie.shareNext shared) := by
    intro shared hshared
    obtain ⟨child, hchild, _⟩ := hshaped.branch_child hnode (mem_of_mem_sharedWith hshared)
    unfold subsetNext shareNext
    rw [hchild, Except.ok_bind, leafAt_of_node hchild]
    split <;> rfl
  unfold subsetVisit
  simp only [hnode, Except.ok_bind, Except.mapM_eq_ok hyield, Except.mapM_eq_ok hnext]
  rfl

private theorem shareNext_place_sublist (shared : Shared α) :
    ((trie.shareNext shared).map SubsetItem.node).Sublist [shared.branch.child] := by
  unfold shareNext
  split
  · exact List.nil_sublist _
  · exact .refl _

/-- What is shared is visited in the opposite order. -/
theorem shareNext_flatMap_perm {κ : Type} (shares : List (Shared α))
    (image : SubsetItem α → List κ) :
    ((shares.map trie.shareNext).reverse.flatten.flatMap image).Perm
      (shares.flatMap fun shared => (trie.shareNext shared).flatMap image) := by
  have hreverse :=
    (List.reverse_perm (shares.map trie.shareNext)).flatten.flatMap_right image
  rwa [← List.flatMap_def, List.flatMap_assoc] at hreverse

/-- What is visited next are children found in the query, in whatever order. -/
theorem shareNext_places_subperm (shares : List (Shared α)) :
    ((shares.map trie.shareNext).reverse.flatten.map SubsetItem.node).Subperm
      (shares.map fun shared => shared.branch.child) := by
  have hreverse : ((shares.map trie.shareNext).reverse.flatten.map SubsetItem.node).Perm
      (shares.flatMap fun shared => (trie.shareNext shared).map SubsetItem.node) := by
    have hperm := @shareNext_flatMap_perm α trie NodeId shares fun item => [item.node]
    simpa only [← List.map_eq_flatMap] using hperm
  have hsublist : (shares.flatMap fun shared =>
      (trie.shareNext shared).map SubsetItem.node).Sublist
        (shares.flatMap fun shared => [shared.branch.child]) :=
    List.Sublist.flatMap_right _ fun shared _ => shareNext_place_sublist shared
  rw [← List.map_eq_flatMap] at hsublist
  exact hreverse.subperm.trans hsublist.subperm

theorem Shaped.descends_subsetVisit (hshaped : trie.Shaped) (order : Order α)
    (size : Nat) : Descends trie SubsetItem.node (trie.subsetVisit order size) := by
  intro item node hnode
  refine ⟨_, hshaped.subsetVisit_eq order hnode, ?_⟩
  have hchildren := (branch_sharedWith_sublist order node.branches item.remaining).map
    Branch.child
  rw [List.map_map] at hchildren
  exact (shareNext_places_subperm _).trans hchildren.subperm

end Visit

/-! What the search has yet to find below an item: the stored sequences that go on
from the node within what remains of the query and stay shorter than the query. -/

def subsetsBelow (trie : Trie α) (order : Order α) (size : Nat)
    (item : SubsetItem α) : List (List α) :=
  trie.selected item.node
    (fun keys => !keys.isEmpty && decide (order.Included keys item.remaining))
    fun keys => keys.length < size

section Below

variable {trie : Trie α} {id : Nat} {node : Node α} {size : Nat}

/-- At a node the path itself may be stored; all else goes on from there. -/
private theorem here_and_below (hshaped : trie.Shaped) (hid : id < trie.nodes.size)
    (remaining : List α) :
    trie.selected id (fun keys => decide (order.Included keys remaining))
        (fun keys => keys.length < size) =
      trie.storedHere size id ++
        trie.subsetsBelow order size { node := id, remaining } := by
  obtain ⟨node, hnode⟩ := exists_node hid
  rw [subsetsBelow, hshaped.selected_eq hnode, hshaped.selected_eq hnode, storedHere,
    terminalAt_of_node hnode]
  simp only [Order.nil_included, decide_true, Bool.and_true, List.isEmpty_nil, Bool.not_true,
    Bool.false_and, Bool.and_false, List.isEmpty_cons, Bool.not_false, Bool.true_and]
  rfl

theorem Shaped.subsetsBelow_eq_nil (hshaped : trie.Shaped) {item : SubsetItem α}
    (hid : item.node < trie.nodes.size)
    (hend : (item.remaining.isEmpty || trie.leafAt item.node) = true) :
    trie.subsetsBelow order size item = [] := by
  obtain ⟨node, hnode⟩ := exists_node hid
  unfold subsetsBelow
  rcases Bool.or_eq_true _ _ ▸ hend with hempty | hleaf
  · rw [List.isEmpty_iff.mp hempty]
    apply selected_eq_nil
    intro keys _
    cases keys <;> simp
  · rw [leafAt_of_node hnode, Node.isLeaf, List.isEmpty_iff] at hleaf
    rw [hshaped.selected_eq hnode, hleaf]
    simp

private theorem shareNext_subsetsBelow (hshaped : trie.Shaped) {shared : Shared α}
    (hchild : shared.branch.child < trie.nodes.size) :
    (trie.shareNext shared).flatMap (trie.subsetsBelow order size) =
      trie.subsetsBelow order size
        { node := shared.branch.child, remaining := shared.remaining } := by
  unfold shareNext
  split
  case isTrue hend =>
    have hnil : trie.subsetsBelow order size
        { node := shared.branch.child, remaining := shared.remaining } = [] :=
      hshaped.subsetsBelow_eq_nil hchild hend
    rw [hnil]
    rfl
  case isFalse => exact List.flatMap_singleton _ _

/-- What is found below one branch is found below its share, if it has one. -/
private theorem below_share [Std.TransCmp order] (hshaped : trie.Shaped)
    (hsorted : Sorted order trie) {remaining : List α} {branch : Branch α}
    (hremaining : order.Ascends remaining) (hnode : trie.node id = .ok node)
    (hbranch : branch ∈ node.branches) :
    trie.selected branch.child
        (fun keys => decide (order.Included (branch.key :: keys) remaining))
        (fun keys => keys.length < size) =
      (shareOf order remaining branch).toList.flatMap fun shared =>
        trie.storedHere size shared.branch.child ++ trie.subsetsBelow order size
          { node := shared.branch.child, remaining := shared.remaining } := by
  obtain ⟨child, hchild, _⟩ := hshaped.branch_child hnode hbranch
  have hincluded : ∀ keys ∈ trie.storedBelow branch.child,
      (order.Included (branch.key :: keys) remaining ↔
        ∃ rest, order.after branch.key remaining = some rest ∧ order.Included keys rest) :=
    fun keys hkeys => Order.included_cons_iff_after
      (hsorted.below_branch_ascends hshaped hnode hbranch hkeys) hremaining
  unfold shareOf
  cases hafter : order.after branch.key remaining with
  | none =>
      apply selected_eq_nil
      intro keys hkeys
      simp [hincluded keys hkeys, hafter]
  | some rest =>
      have hgoes : ∀ keys ∈ trie.storedBelow branch.child,
          decide (order.Included (branch.key :: keys) remaining) =
            decide (order.Included keys rest) := by
        intro keys hkeys
        simp [hincluded keys hkeys, hafter]
      rw [selected_congr hgoes, here_and_below hshaped (lt_size_of_node hchild)]
      exact (List.flatMap_singleton _ _).symm

/-- One visit of the search: the shares of a node cover what is found below it. -/
theorem Sorted.subsetsBelow_eq [Std.TransCmp order] (hshaped : trie.Shaped)
    (hsorted : Sorted order trie) {item : SubsetItem α}
    (hremaining : order.Ascends item.remaining) (hnode : trie.node item.node = .ok node) :
    trie.subsetsBelow order size item =
      (sharedWith order node.branches item.remaining).flatMap fun shared =>
        trie.storedHere size shared.branch.child ++ trie.subsetsBelow order size
          { node := shared.branch.child, remaining := shared.remaining } := by
  rw [sharedWith_eq (hsorted.siblings _ node hnode) hremaining,
    List.filterMap_eq_flatMap_toList, List.flatMap_assoc, subsetsBelow,
    hshaped.selected_eq hnode]
  simp only [List.isEmpty_nil, Bool.not_true, Bool.false_and, Bool.and_false,
    Bool.false_eq_true, if_false, List.nil_append, List.isEmpty_cons, Bool.not_false,
    Bool.true_and]
  apply List.flatMap_congr
  intro branch hbranch
  exact below_share hshaped hsorted hremaining hnode hbranch

end Below

/-! The whole search, from the root with the whole query. -/

section Search

variable {trie : Trie α} {size : Nat}

private theorem mem_shareNext_iff {shared : Shared α} {next : SubsetItem α} :
    next ∈ trie.shareNext shared ↔ next.node = shared.branch.child ∧
      next.remaining = shared.remaining ∧ shared.remaining ≠ [] ∧
        trie.leafAt shared.branch.child = false := by
  obtain ⟨id, remaining⟩ := next
  unfold shareNext
  split
  case isTrue hend =>
    refine iff_of_false List.not_mem_nil ?_
    rintro ⟨-, -, hne, hleaf⟩
    rw [hleaf, Bool.or_false, List.isEmpty_iff] at hend
    exact hne hend
  case isFalse hgoes =>
    rw [Bool.or_eq_true, not_or, List.isEmpty_iff, Bool.not_eq_true] at hgoes
    simp [hgoes.1, hgoes.2]

/-- A visit leads to those children whose keys the query still holds, unless the query
or the trie ends there. -/
theorem Sorted.mem_subsetNext_iff [Std.TransCmp order] (hshaped : trie.Shaped)
    (hsorted : Sorted order trie) {item next : SubsetItem α} {node : Node α}
    {found : Visit (SubsetItem α) (List α)} (hremaining : order.Ascends item.remaining)
    (hnode : trie.node item.node = .ok node)
    (hvisit : trie.subsetVisit order size item = .ok found) :
    next ∈ found.next ↔ ∃ branch ∈ node.branches, next.node = branch.child ∧
      order.after branch.key item.remaining = some next.remaining ∧
        next.remaining ≠ [] ∧ trie.leafAt next.node = false := by
  have hbranches := hsorted.siblings item.node node hnode
  rw [hshaped.subsetVisit_eq order hnode] at hvisit
  cases hvisit
  simp only [List.mem_flatten, List.mem_reverse, List.mem_map, exists_exists_and_eq_and,
    mem_sharedWith_iff hbranches hremaining, mem_shareNext_iff]
  constructor
  · rintro ⟨⟨branch, rest⟩, ⟨hbranch, hafter⟩, hchild, rfl, hne, hleaf⟩
    exact ⟨branch, hbranch, hchild, hafter, hne, hchild ▸ hleaf⟩
  · rintro ⟨branch, hbranch, hchild, hafter, hne, hleaf⟩
    exact ⟨⟨branch, next.remaining⟩, ⟨hbranch, hafter⟩, hchild, rfl, hne, hchild ▸ hleaf⟩

/-- A visit leads to nodes of the trie, with what remains of the query still ascending. -/
theorem Sorted.subsetNext_ascends [Std.TransCmp order] (hshaped : trie.Shaped)
    (hsorted : Sorted order trie) (item : SubsetItem α)
    (found : Visit (SubsetItem α) (List α))
    (hitem : item.node < trie.nodes.size ∧ order.Ascends item.remaining)
    (hvisit : trie.subsetVisit order size item = .ok found) :
    ∀ next ∈ found.next,
      next.node < trie.nodes.size ∧ order.Ascends next.remaining := by
  obtain ⟨node, hnode⟩ := exists_node hitem.1
  intro next hnext
  obtain ⟨branch, hbranch, hchild, hafter, _⟩ :=
    (hsorted.mem_subsetNext_iff hshaped hitem.2 hnode hvisit).mp hnext
  obtain ⟨below, hbelow, _⟩ := hshaped.branch_child hnode hbranch
  rw [hchild]
  exact ⟨lt_size_of_node hbelow, hitem.2.of_after hafter⟩

/-- A visit keeps what is found and what is yet to be found together. -/
private theorem subsetVisit_perm [Std.TransCmp order] (hshaped : trie.Shaped)
    (hsorted : Sorted order trie) (item : SubsetItem α)
    (found : Visit (SubsetItem α) (List α))
    (hitem : item.node < trie.nodes.size ∧ order.Ascends item.remaining)
    (hvisit : trie.subsetVisit order size item = .ok found) :
    (∀ next ∈ found.next,
      next.node < trie.nodes.size ∧ order.Ascends next.remaining) ∧
    (found.yields ++ found.next.flatMap (trie.subsetsBelow order size)).Perm
      (trie.subsetsBelow order size item) := by
  refine ⟨hsorted.subsetNext_ascends hshaped item found hitem hvisit, ?_⟩
  obtain ⟨node, hnode⟩ := exists_node hitem.1
  rw [hshaped.subsetVisit_eq order hnode] at hvisit
  cases hvisit
  have hlater : (((sharedWith order node.branches item.remaining).map
      trie.shareNext).reverse.flatten.flatMap (trie.subsetsBelow order size)).Perm
        ((sharedWith order node.branches item.remaining).flatMap fun shared =>
          trie.subsetsBelow order size
            { node := shared.branch.child, remaining := shared.remaining }) := by
    refine (shareNext_flatMap_perm _ _).trans (List.Perm.of_eq (List.flatMap_congr ?_))
    intro shared hshared
    obtain ⟨child, hchild, _⟩ := hshaped.branch_child hnode (mem_of_mem_sharedWith hshared)
    exact shareNext_subsetsBelow hshaped (lt_size_of_node hchild)
  rw [hsorted.subsetsBelow_eq hshaped hitem.2 hnode]
  exact (hlater.append_left _).trans (List.flatMap_append_perm _ _ _)

theorem properSubsets_of_walk {query : Canonical α}
    {visited : List (Visited (SubsetItem α) (List α))}
    (hwalk : trie.subsetWalk order query.elements = .ok visited) :
    trie.properSubsets order query = .ok (Findings.ofVisited visited) := by
  rw [properSubsets, hwalk]
  rfl

theorem Sorted.subsetWalk_perm [Std.TransCmp order] (hshaped : trie.Shaped)
    (hsorted : Sorted order trie) {query : List α} (hquery : order.Ascends query) :
    ∃ visited, trie.subsetWalk order query = .ok visited ∧
      (harvest visited).Perm ((trie.storedBelow root).filter fun keys =>
        decide (order.Included keys query ∧ keys.length < query.length)) := by
  have hroot : root < trie.nodes.size := hshaped.size_pos
  obtain ⟨visited, hwalk, htraversal, _⟩ :=
    (hshaped.descends_subsetVisit order query.length).exists_walk hshaped
      { node := root, remaining := query } hroot
  have hharvest : (harvest visited).Perm
      ([{ node := root, remaining := query }].flatMap
        (trie.subsetsBelow order query.length)) := by
    refine htraversal.flatMap_perm
      (fun item => item.node < trie.nodes.size ∧ order.Ascends item.remaining)
      Visited.yields _ (subsetVisit_perm hshaped hsorted) ?_
    intro item hitem
    rw [List.mem_singleton.mp hitem]
    exact ⟨hroot, hquery⟩
  refine ⟨visited, hwalk, hharvest.trans (List.Perm.of_eq ?_)⟩
  rw [List.flatMap_singleton, subsetsBelow, hshaped.selected_root]
  apply List.filter_congr
  intro keys hkeys
  have hne := hshaped.stores_ne_nil (hshaped.mem_storedBelow_root_iff.mp hkeys)
  rw [List.isEmpty_eq_false_iff.mpr hne, Bool.not_false, Bool.true_and, Bool.decide_and]

/-- The search finds the stored proper subsets of the query, each of them once. -/
theorem Sorted.properSubsets_perm [Std.TransCmp order] (hshaped : trie.Shaped)
    (hsorted : Sorted order trie) {query : Canonical α}
    (hquery : order.Ascends query.elements) :
    ∃ findings, trie.properSubsets order query = .ok findings ∧
      findings.sets.Perm ((trie.storedBelow root).filter fun keys =>
        decide (order.ProperlyIncluded keys query.elements)) := by
  obtain ⟨visited, hwalk, hperm⟩ := hsorted.subsetWalk_perm hshaped hquery
  refine ⟨_, properSubsets_of_walk hwalk, hperm.trans (List.Perm.of_eq ?_)⟩
  apply List.filter_congr
  intro keys hkeys
  have hascends : order.Ascends keys :=
    hsorted.stores_ascends hshaped (hshaped.mem_storedBelow_root_iff.mp hkeys)
  rw [decide_eq_decide, Order.properlyIncluded_iff]
  exact and_congr_right fun hincluded => hascends.length_lt_iff hquery hincluded

end Search

end Trie

end Containment
