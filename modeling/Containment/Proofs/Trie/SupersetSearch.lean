import Containment.Trie.Supersets
import Containment.Proofs.Canonical
import Containment.Proofs.Trie.Collection

namespace Containment.Trie

variable {α : Type} {trie : Trie α} {order : Order α} {id : Nat} {node : Node α}

/-! How the first key of an ascending path bears on what the path has to include. -/

section Required

variable [Std.TransCmp order] {key next : α} {keys later : List α}

private theorem not_included_of_gt (hkeys : order.Ascends (key :: keys))
    (hgt : order key next = .gt) : ¬ order.Included (next :: later) (key :: keys) := by
  intro hincluded
  obtain ⟨other, hother, heq⟩ := hincluded next List.mem_cons_self
  have habove : order next other = .lt :=
    (hkeys.cons_of_lt (Std.OrientedCmp.lt_of_gt hgt)).head_lt hother
  rw [habove] at heq
  contradiction

private theorem included_iff_of_eq (hrequired : order.Ascends (next :: later))
    (heq : order key next = .eq) :
    order.Included (next :: later) (key :: keys) ↔ order.Included later keys := by
  have hbelow : ∀ element ∈ later, order key element = .lt := fun element helement =>
    Std.TransCmp.lt_of_eq_of_lt heq (hrequired.head_lt helement)
  rw [Order.included_cons, Order.included_cons_right_of_lt hbelow]
  constructor
  · exact And.right
  · exact fun hincluded =>
      ⟨⟨key, List.mem_cons_self, Std.OrientedCmp.eq_symm heq⟩, hincluded⟩

private theorem included_iff_of_lt (hrequired : order.Ascends (next :: later))
    (hlt : order key next = .lt) :
    order.Included (next :: later) (key :: keys) ↔ order.Included (next :: later) keys := by
  apply Order.included_cons_right_of_lt
  intro element helement
  exact (hrequired.cons_of_lt hlt).head_lt helement

end Required

/-! The branches that are followed are those whose keys are not above the next
required element. -/

theorem promising_eq_filter [Std.TransCmp order] {next : α}
    (hbranches : order.Ascends (node.branches.map Branch.key)) :
    promising order node next =
      node.branches.filter fun branch => order branch.key next != .gt := by
  unfold promising
  apply take_partitionPoint
  rw [Order.Ascends, List.pairwise_map] at hbranches
  refine hbranches.imp ?_
  intro left right hlt hright
  rw [bne_iff_ne] at hright ⊢
  intro hgt
  apply hright
  exact Std.OrientedCmp.gt_of_lt
    (Std.TransCmp.lt_trans (Std.OrientedCmp.lt_of_gt hgt) hlt)

theorem promising_sublist (order : Order α) (node : Node α) (next : α) :
    (promising order node next).Sublist node.branches :=
  List.take_sublist _ _

@[simp] theorem supersetNext_node (order : Order α) (next : α) (later : List α)
    (branch : Branch α) : (supersetNext order next later branch).node = branch.child := by
  unfold supersetNext
  split <;> rfl

/-! A visit of the superset search, with the reads taken out. -/

def coveredVisit (trie : Trie α) (size : Nat) (id : NodeId) :
    Visit (SupersetItem α) (List α) :=
  { yields := trie.longer size id, next := [] }

theorem Shaped.supersetVisit_nil (hshaped : trie.Shaped) (order : Order α) {size : Nat}
    (hid : id < trie.nodes.size) :
    trie.supersetVisit order size { node := id, required := [] } =
      .ok (trie.coveredVisit size id) := by
  simp only [supersetVisit, hshaped.collect_eq hid, Except.ok_bind]
  rfl

theorem supersetVisit_cons (order : Order α) {size : Nat} {next : α} {later : List α}
    (hnode : trie.node id = .ok node) :
    trie.supersetVisit order size { node := id, required := next :: later } = .ok
      { yields := []
        next := (promising order node next).map (supersetNext order next later) } := by
  simp only [supersetVisit, hnode, Except.ok_bind]
  rfl

theorem Shaped.descends_supersetVisit (hshaped : trie.Shaped) (order : Order α)
    (size : Nat) : Descends trie SupersetItem.node (trie.supersetVisit order size) := by
  intro item node hnode
  obtain ⟨id, required⟩ := item
  cases required with
  | nil =>
      exact ⟨_, hshaped.supersetVisit_nil order (lt_size_of_node hnode),
        List.nil_subperm⟩
  | cons next later =>
      refine ⟨_, supersetVisit_cons order hnode, ?_⟩
      rw [List.map_map]
      have hplace : SupersetItem.node ∘ supersetNext order next later = Branch.child :=
        funext fun branch => supersetNext_node order next later branch
      rw [hplace]
      exact ((promising_sublist order node next).map Branch.child).subperm

/-! What the search has yet to find below an item: the stored sequences through the
node that have all that is required below it and are longer than the query. -/

def supersetsBelow (trie : Trie α) (order : Order α) (size : Nat)
    (item : SupersetItem α) : List (List α) :=
  trie.selected item.node (fun keys => decide (order.Included item.required keys))
    fun keys => size < keys.length

theorem supersetsBelow_nil {size : Nat} :
    trie.supersetsBelow order size { node := id, required := [] } =
      (trie.coveredVisit size id).yields := by
  apply selected_congr
  intro keys _
  simp

/-- Below a branch that is not followed nothing is found; below another one what is
found there with the rest of what is required. -/
private theorem below_branch [Std.TransCmp order] (hshaped : trie.Shaped)
    (hsorted : Sorted order trie) {size : Nat} {next : α} {later : List α}
    {branch : Branch α} (hrequired : order.Ascends (next :: later))
    (hnode : trie.node id = .ok node) (hbranch : branch ∈ node.branches) :
    trie.selected branch.child
        (fun keys => decide (order.Included (next :: later) (branch.key :: keys)))
        (fun keys => size < keys.length) =
      if order branch.key next != .gt then
        trie.supersetsBelow order size (supersetNext order next later branch)
      else [] := by
  unfold supersetsBelow
  rw [supersetNext_node]
  cases hstanding : order branch.key next with
  | gt =>
      apply selected_eq_nil
      intro keys hkeys
      have hascends := hsorted.below_branch_ascends hshaped hnode hbranch hkeys
      exact decide_eq_false (not_included_of_gt hascends hstanding)
  | eq =>
      simp only [included_iff_of_eq hrequired hstanding, supersetNext,
        Order.equivalent_eq_true.mpr hstanding]
      rfl
  | lt =>
      have hnot : order.equivalent branch.key next = false := by
        rw [Order.equivalent, hstanding]
        rfl
      simp only [included_iff_of_lt hrequired hstanding, supersetNext, hnot]
      rfl

private theorem flatMap_filter {ι κ : Type} (passes : ι → Bool) (image : ι → List κ)
    (entries : List ι) :
    (entries.filter passes).flatMap image =
      entries.flatMap fun entry => if passes entry then image entry else [] := by
  induction entries with
  | nil => rfl
  | cons entry entries induction =>
      rw [List.filter_cons, List.flatMap_cons, ← induction]
      cases passes entry <;> rfl

/-- One visit of the search: the branches followed cover what is found below a node. -/
theorem Sorted.supersetsBelow_cons [Std.TransCmp order] (hshaped : trie.Shaped)
    (hsorted : Sorted order trie) {size : Nat} {next : α} {later : List α}
    (hrequired : order.Ascends (next :: later)) (hnode : trie.node id = .ok node) :
    trie.supersetsBelow order size { node := id, required := next :: later } =
      (promising order node next).flatMap fun branch =>
        trie.supersetsBelow order size (supersetNext order next later branch) := by
  rw [promising_eq_filter (hsorted.siblings id node hnode), flatMap_filter,
    supersetsBelow, hshaped.selected_eq hnode]
  simp only [Order.not_included_nil, decide_false, Bool.and_false, Bool.false_and,
    Bool.false_eq_true, if_false, List.nil_append]
  apply List.flatMap_congr
  intro branch hbranch
  exact below_branch hshaped hsorted hrequired hnode hbranch

/-! The whole search, from the root with the whole query. -/

theorem properSupersets_of_walk {query : Canonical α}
    {visited : List (Visited (SupersetItem α) (List α))}
    (hwalk : trie.supersetWalk order query.elements = .ok visited) :
    trie.properSupersets order query = .ok (Findings.ofVisited visited) := by
  rw [properSupersets, hwalk]
  rfl

private theorem supersetVisit_eq [Std.TransCmp order] (hshaped : trie.Shaped)
    (hsorted : Sorted order trie) {size : Nat} (item : SupersetItem α)
    (found : Visit (SupersetItem α) (List α))
    (hitem : item.node < trie.nodes.size ∧ order.Ascends item.required)
    (hvisit : trie.supersetVisit order size item = .ok found) :
    (∀ next ∈ found.next,
      next.node < trie.nodes.size ∧ order.Ascends next.required) ∧
    found.yields ++ found.next.flatMap (trie.supersetsBelow order size) =
      trie.supersetsBelow order size item := by
  obtain ⟨id, required⟩ := item
  obtain ⟨hid, hrequired⟩ := hitem
  cases required with
  | nil =>
      rw [hshaped.supersetVisit_nil order hid] at hvisit
      cases hvisit
      refine ⟨fun _ hnext => absurd hnext List.not_mem_nil, ?_⟩
      rw [supersetsBelow_nil]
      exact List.append_nil _
  | cons next later =>
      obtain ⟨node, hnode⟩ := exists_node hid
      rw [supersetVisit_cons order hnode] at hvisit
      cases hvisit
      refine ⟨?_, ?_⟩
      · intro other hother
        obtain ⟨branch, hbranch, rfl⟩ := List.mem_map.mp hother
        obtain ⟨child, hchild, _⟩ := hshaped.branch_child hnode
          ((promising_sublist order node next).subset hbranch)
        rw [supersetNext_node]
        refine ⟨lt_size_of_node hchild, ?_⟩
        unfold supersetNext
        split
        · exact hrequired.tail
        · exact hrequired
      · rw [hsorted.supersetsBelow_cons hshaped hrequired hnode, List.nil_append,
          List.flatMap_map]

theorem Sorted.supersetWalk_eq [Std.TransCmp order] (hshaped : trie.Shaped)
    (hsorted : Sorted order trie) {query : List α} (hquery : order.Ascends query) :
    ∃ visited, trie.supersetWalk order query = .ok visited ∧
      harvest visited = (trie.storedBelow root).filter fun keys =>
        decide (order.Included query keys ∧ query.length < keys.length) := by
  have hroot : root < trie.nodes.size := hshaped.size_pos
  obtain ⟨visited, hwalk, htraversal, _⟩ :=
    (hshaped.descends_supersetVisit order query.length).exists_walk hshaped
      { node := root, required := query } hroot
  have hharvest : harvest visited =
      [{ node := root, required := query }].flatMap
        (trie.supersetsBelow order query.length) := by
    refine htraversal.flatMap_eq
      (fun item => item.node < trie.nodes.size ∧ order.Ascends item.required)
      Visited.yields _ (supersetVisit_eq hshaped hsorted) ?_
    intro item hitem
    rw [List.mem_singleton.mp hitem]
    exact ⟨hroot, hquery⟩
  refine ⟨visited, hwalk, ?_⟩
  rw [hharvest, List.flatMap_singleton, supersetsBelow, hshaped.selected_root]
  simp only [Bool.decide_and]

/-- The search finds the stored proper supersets of the query, each of them once. -/
theorem Sorted.properSupersets_eq [Std.TransCmp order] (hshaped : trie.Shaped)
    (hsorted : Sorted order trie) {query : Canonical α}
    (hquery : order.Ascends query.elements) :
    ∃ findings, trie.properSupersets order query = .ok findings ∧
      findings.sets = (trie.storedBelow root).filter fun keys =>
        decide (order.ProperlyIncluded query.elements keys) := by
  obtain ⟨visited, hwalk, heq⟩ := hsorted.supersetWalk_eq hshaped hquery
  refine ⟨_, properSupersets_of_walk hwalk, heq.trans ?_⟩
  apply List.filter_congr
  intro keys hkeys
  have hascends : order.Ascends keys :=
    hsorted.stores_ascends hshaped (hshaped.mem_storedBelow_root_iff.mp hkeys)
  rw [decide_eq_decide, Order.properlyIncluded_iff]
  exact and_congr_right fun hincluded => hquery.length_lt_iff hascends hincluded

end Containment.Trie
