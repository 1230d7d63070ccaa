import Containment.Proofs.Trie.Stored
import Mathlib.Data.List.Nodup
import Mathlib.Data.List.Perm.Subperm

namespace Containment.Trie

variable {α : Type} {trie : Trie α} {order : Order α}

/-! All ways down from a node, with every parent before its children and the
children in the order of their branches. -/

structure Route (α : Type) where
  keys : List α
  finish : NodeId

def Route.under (key : α) (route : Route α) : Route α :=
  { route with keys := key :: route.keys }

def routesWithin (trie : Trie α) : Nat → NodeId → List (Route α)
  | 0, _ => []
  | budget + 1, id =>
      match trie.node id with
      | .error _ => []
      | .ok node =>
          { keys := [], finish := id } ::
            node.branches.flatMap fun branch =>
              (trie.routesWithin budget branch.child).map (Route.under branch.key)

def routes (trie : Trie α) (id : NodeId) : List (Route α) :=
  trie.routesWithin trie.nodes.size id

private theorem routesWithin_stable (hshaped : trie.Shaped) {id : Nat}
    (hid : id < trie.nodes.size) {left right : Nat}
    (hleft : trie.nodes.size ≤ left + id) (hright : trie.nodes.size ≤ right + id) :
    trie.routesWithin left id = trie.routesWithin right id := by
  induction left generalizing right id with
  | zero => omega
  | succ left induction =>
      obtain ⟨right, rfl⟩ : ∃ smaller, right = smaller + 1 := ⟨right - 1, by omega⟩
      obtain ⟨node, hnode⟩ := exists_node hid
      simp only [routesWithin, hnode]
      congr 1
      apply List.flatMap_congr
      intro branch hbranch
      obtain ⟨child, hchild, _, hlt, _⟩ := hshaped.branch_child hnode hbranch
      have hbelow : trie.routesWithin left branch.child =
          trie.routesWithin right branch.child :=
        induction (lt_size_of_node hchild) (by omega) (by omega)
      rw [hbelow]

namespace Shaped

theorem routes_eq (hshaped : trie.Shaped) {id : Nat} {node : Node α}
    (hnode : trie.node id = .ok node) :
    trie.routes id = { keys := [], finish := id } ::
      node.branches.flatMap fun branch =>
        (trie.routes branch.child).map (Route.under branch.key) := by
  obtain ⟨size, hsize⟩ : ∃ size, trie.nodes.size = size + 1 :=
    ⟨trie.nodes.size - 1, by have := hshaped.size_pos; omega⟩
  rw [routes, hsize]
  simp only [routesWithin, hnode]
  congr 1
  apply List.flatMap_congr
  intro branch hbranch
  obtain ⟨child, hchild, _, hlt, _⟩ := hshaped.branch_child hnode hbranch
  have hbelow : trie.routesWithin size branch.child = trie.routes branch.child :=
    routesWithin_stable hshaped (lt_size_of_node hchild) (by omega) (by omega)
  rw [hbelow]

theorem mem_routes_iff (hshaped : trie.Shaped) {id : Nat} (hid : id < trie.nodes.size)
    {route : Route α} :
    route ∈ trie.routes id ↔ trie.Leads id route.keys route.finish := by
  suffices hevery : ∀ route : Route α,
      route ∈ trie.routes id ↔ trie.Leads id route.keys route.finish from hevery route
  apply hshaped.descent (motive := fun id => ∀ route : Route α,
    route ∈ trie.routes id ↔ trie.Leads id route.keys route.finish) _ hid
  intro id node hnode induction route
  rw [hshaped.routes_eq hnode, List.mem_cons, List.mem_flatMap]
  constructor
  · intro hmem
    rcases hmem with rfl | ⟨branch, hbranch, hmap⟩
    · exact .here hnode
    · obtain ⟨rest, hrest, rfl⟩ := List.mem_map.mp hmap
      exact .down hnode hbranch ((induction branch hbranch rest).mp hrest)
  · intro hleads
    obtain ⟨keys, finish⟩ := route
    cases hleads with
    | here => exact Or.inl rfl
    | down hother hbranch hrest =>
        obtain rfl := node_unique hnode hother
        exact Or.inr ⟨_, hbranch, List.mem_map.mpr
          ⟨⟨_, _⟩, (induction _ hbranch _).mpr hrest, rfl⟩⟩

end Shaped

/-- A node and all nodes below it. -/
def descendants (trie : Trie α) (id : NodeId) : List NodeId :=
  (trie.routes id).map Route.finish

namespace Shaped

theorem descendants_eq (hshaped : trie.Shaped) {id : Nat} {node : Node α}
    (hnode : trie.node id = .ok node) :
    trie.descendants id = id :: node.children.flatMap trie.descendants := by
  rw [descendants, hshaped.routes_eq hnode, List.map_cons, List.map_flatMap,
    Node.children, List.flatMap_map]
  congr 1
  apply List.flatMap_congr
  intro branch _
  rw [List.map_map]
  rfl

theorem mem_descendants_iff (hshaped : trie.Shaped) {id : Nat}
    (hid : id < trie.nodes.size) {finish : NodeId} :
    finish ∈ trie.descendants id ↔ ∃ keys, trie.Leads id keys finish := by
  rw [descendants, List.mem_map]
  constructor
  · intro hmap
    obtain ⟨route, hroute, rfl⟩ := hmap
    exact ⟨route.keys, (hshaped.mem_routes_iff hid).mp hroute⟩
  · intro hbelow
    obtain ⟨keys, hleads⟩ := hbelow
    exact ⟨{ keys, finish }, (hshaped.mem_routes_iff hid).mpr hleads, rfl⟩

theorem node_of_child (hshaped : trie.Shaped) {id : Nat} {node : Node α} {child : Nat}
    (hnode : trie.node id = .ok node) (hchild : child ∈ node.children) :
    ∃ below, trie.node child = .ok below ∧ id < child ∧ below.depth = node.depth + 1 := by
  obtain ⟨branch, hbranch, rfl⟩ := List.mem_map.mp hchild
  obtain ⟨below, hbelow, _, hlt, hdepth⟩ := hshaped.branch_child hnode hbranch
  exact ⟨below, hbelow, hlt, hdepth⟩

theorem child_lt_size (hshaped : trie.Shaped) {id : Nat} {node : Node α} {child : Nat}
    (hnode : trie.node id = .ok node) (hchild : child ∈ node.children) :
    child < trie.nodes.size := by
  obtain ⟨_, hbelow, _⟩ := hshaped.node_of_child hnode hchild
  exact lt_size_of_node hbelow

/-- What hangs below one child does not hang below another. -/
private theorem disjoint_descendants (hshaped : trie.Shaped) {id : Nat} {node : Node α}
    {left right finish : Nat} (hnode : trie.node id = .ok node)
    (hleft : left ∈ node.children) (hright : right ∈ node.children)
    (hleftFinish : finish ∈ trie.descendants left)
    (hrightFinish : finish ∈ trie.descendants right) : left = right := by
  obtain ⟨leftBelow, hleftNode, _, hleftDepth⟩ := hshaped.node_of_child hnode hleft
  obtain ⟨rightBelow, hrightNode, _, hrightDepth⟩ := hshaped.node_of_child hnode hright
  obtain ⟨leftKeys, hleftLeads⟩ :=
    (hshaped.mem_descendants_iff (lt_size_of_node hleftNode)).mp hleftFinish
  obtain ⟨rightKeys, hrightLeads⟩ :=
    (hshaped.mem_descendants_iff (lt_size_of_node hrightNode)).mp hrightFinish
  obtain ⟨last, hlast⟩ := hleftLeads.finish_node
  have hleftLast := hleftLeads.depth_eq hshaped hleftNode hlast
  have hrightLast := hrightLeads.depth_eq hshaped hrightNode hlast
  exact (hleftLeads.unique hshaped hrightLeads (by omega)).1

theorem descendants_nodup (hshaped : trie.Shaped) {id : Nat}
    (hid : id < trie.nodes.size) : (trie.descendants id).Nodup := by
  apply hshaped.descent (motive := fun id => (trie.descendants id).Nodup) _ hid
  intro id node hnode induction
  rw [hshaped.descendants_eq hnode, List.nodup_cons, List.nodup_flatMap]
  refine ⟨?_, ?_, ?_⟩
  · intro hmem
    obtain ⟨child, hchild, hfinish⟩ := List.mem_flatMap.mp hmem
    obtain ⟨below, hbelow, _, hdepth⟩ := hshaped.node_of_child hnode hchild
    obtain ⟨keys, hback⟩ :=
      (hshaped.mem_descendants_iff (lt_size_of_node hbelow)).mp hfinish
    have hlast := hback.depth_eq hshaped hbelow hnode
    omega
  · intro child hchild
    obtain ⟨branch, hbranch, rfl⟩ := List.mem_map.mp hchild
    exact induction branch hbranch
  · refine (hshaped.children_nodup id node hnode).imp_of_mem ?_
    intro left right hleft hright hne finish hleftFinish hrightFinish
    exact hne (hshaped.disjoint_descendants hnode hleft hright hleftFinish hrightFinish)

theorem length_descendants_le (hshaped : trie.Shaped) {id : Nat}
    (hid : id < trie.nodes.size) : (trie.descendants id).length ≤ trie.nodes.size := by
  have hsubset : trie.descendants id ⊆ List.range trie.nodes.size := by
    intro finish hfinish
    obtain ⟨keys, hleads⟩ := (hshaped.mem_descendants_iff hid).mp hfinish
    obtain ⟨last, hlast⟩ := hleads.finish_node
    exact List.mem_range.mpr (lt_size_of_node hlast)
  have hle := ((hshaped.descendants_nodup hid).subperm hsubset).length_le
  rwa [List.length_range] at hle

theorem descendants_root_perm (hshaped : trie.Shaped) :
    (trie.descendants root).Perm (List.range trie.nodes.size) := by
  apply (List.perm_ext_iff_of_nodup (hshaped.descendants_nodup hshaped.size_pos)
    List.nodup_range).mpr
  intro finish
  rw [hshaped.mem_descendants_iff hshaped.size_pos, List.mem_range]
  constructor
  · intro hbelow
    obtain ⟨_, hleads⟩ := hbelow
    obtain ⟨_, hlast⟩ := hleads.finish_node
    exact lt_size_of_node hlast
  · exact hshaped.exists_leads

/-- From the root there is one way to each node. -/
theorem length_routes (hshaped : trie.Shaped) :
    (trie.routes root).length = trie.nodes.size := by
  have hlength := hshaped.descendants_root_perm.length_eq
  rwa [descendants, List.length_map, List.length_range] at hlength

end Shaped

/-! The stored sequences below a node, each with its keys from that node on. -/

def terminalAt (trie : Trie α) (id : NodeId) : Bool :=
  match trie.node id with
  | .ok node => node.terminal
  | .error _ => false

theorem terminalAt_of_node {id : NodeId} {node : Node α}
    (hnode : trie.node id = .ok node) : trie.terminalAt id = node.terminal := by
  unfold terminalAt
  rw [hnode]

theorem terminalAt_eq_false_iff {id : NodeId} :
    trie.terminalAt id = false ↔ ∀ node, trie.node id = .ok node → node.terminal = false := by
  unfold terminalAt
  cases trie.node id <;> simp

theorem terminalAt_of_beyond {id : Nat} (hid : ¬ id < trie.nodes.size) :
    trie.terminalAt id = false :=
  terminalAt_eq_false_iff.mpr fun _ hnode => absurd (lt_size_of_node hnode) hid

theorem countP_terminalAt_range (trie : Trie α) :
    (List.range trie.nodes.size).countP trie.terminalAt = trie.terminalCount := by
  have hmarks : (List.range trie.nodes.size).map trie.terminalAt =
      trie.nodes.toList.map Node.terminal := by
    apply List.ext_getElem
    · simp
    · intro id hid _
      have hlt : id < trie.nodes.size := by simpa using hid
      obtain ⟨node, hnode⟩ := exists_node hlt
      obtain ⟨_, hget⟩ := Array.getElem?_eq_some_iff.mp (node_eq_ok_iff.mp hnode)
      rw [List.getElem_map, List.getElem_range, List.getElem_map, Array.getElem_toList, hget,
        terminalAt_of_node hnode]
  have hcount := congrArg (List.countP id) hmarks
  rwa [List.countP_map, List.countP_map] at hcount

def storedBelow (trie : Trie α) (id : NodeId) : List (List α) :=
  ((trie.routes id).filter fun route => trie.terminalAt route.finish).map Route.keys

namespace Shaped

theorem storedBelow_eq (hshaped : trie.Shaped) {id : Nat} {node : Node α}
    (hnode : trie.node id = .ok node) :
    trie.storedBelow id = (if node.terminal then [[]] else []) ++
      node.branches.flatMap fun branch =>
        (trie.storedBelow branch.child).map (branch.key :: ·) := by
  have hbelow : ∀ branch : Branch α,
      ((((trie.routes branch.child).map (Route.under branch.key)).filter
        fun route => trie.terminalAt route.finish).map Route.keys) =
          (trie.storedBelow branch.child).map (branch.key :: ·) := by
    intro branch
    rw [List.filter_map, List.map_map, storedBelow, List.map_map]
    rfl
  rw [storedBelow, hshaped.routes_eq hnode, List.filter_cons, terminalAt_of_node hnode,
    List.filter_flatMap]
  cases node.terminal <;> simp [List.map_flatMap, hbelow]

theorem mem_storedBelow_iff (hshaped : trie.Shaped) {id : Nat}
    (hid : id < trie.nodes.size) {keys : List α} :
    keys ∈ trie.storedBelow id ↔ ∃ (finish : Nat) (node : Node α),
      trie.Leads id keys finish ∧ trie.node finish = .ok node ∧ node.terminal = true := by
  unfold storedBelow
  simp only [List.mem_map, List.mem_filter, hshaped.mem_routes_iff hid]
  constructor
  · intro hmap
    obtain ⟨route, ⟨hleads, hterminal⟩, rfl⟩ := hmap
    obtain ⟨node, hnode⟩ := hleads.finish_node
    rw [terminalAt_of_node hnode] at hterminal
    exact ⟨route.finish, node, hleads, hnode, hterminal⟩
  · intro hbelow
    obtain ⟨finish, node, hleads, hnode, hterminal⟩ := hbelow
    refine ⟨{ keys, finish }, ⟨hleads, ?_⟩, rfl⟩
    rw [terminalAt_of_node hnode, hterminal]

theorem mem_storedBelow_root_iff (hshaped : trie.Shaped) {keys : List α} :
    keys ∈ trie.storedBelow root ↔ trie.Stores keys :=
  hshaped.mem_storedBelow_iff hshaped.size_pos

/-- As many as the trie counts. -/
theorem length_storedBelow (hshaped : trie.Shaped) :
    (trie.storedBelow root).length = trie.stored := by
  have hperm := hshaped.descendants_root_perm
  rw [storedBelow, List.length_map, ← List.countP_eq_length_filter]
  calc (trie.routes root).countP (fun route => trie.terminalAt route.finish)
      = (trie.descendants root).countP trie.terminalAt := by
        rw [descendants, List.countP_map]
        rfl
    _ = trie.terminalCount := by rw [hperm.countP_eq, countP_terminalAt_range]
    _ = trie.stored := hshaped.counted.symm

end Shaped

/-- In a sorted trie no two of them agree. -/
theorem Sorted.storedBelow_pairwise [Std.TransCmp order] (hshaped : trie.Shaped)
    (hsorted : Sorted order trie) {id : Nat} (hid : id < trie.nodes.size) :
    (trie.storedBelow id).Pairwise fun left right => ¬ order.Agree left right := by
  have hfinish := hshaped.descendants_nodup hid
  rw [descendants, List.Nodup, List.pairwise_map] at hfinish
  rw [storedBelow, List.pairwise_map]
  refine (hfinish.imp_of_mem ?_).filter _
  intro left right hleft hright hne hagree
  have hleftLeads := (hshaped.mem_routes_iff hid).mp hleft
  have hrightLeads := (hshaped.mem_routes_iff hid).mp hright
  exact hne (hsorted.leads_agree_unique hleftLeads hrightLeads hagree).2

theorem Sorted.branch_ascends [Std.TransCmp order] (hshaped : trie.Shaped)
    (hsorted : Sorted order trie) {id finish : Nat} {node : Node α} {branch : Branch α}
    {keys : List α} (hnode : trie.node id = .ok node) (hbranch : branch ∈ node.branches)
    (hleads : trie.Leads branch.child keys finish) : order.Ascends (branch.key :: keys) := by
  obtain ⟨child, hchild, horigin⟩ := hshaped.linked id node branch hnode hbranch
  apply (hsorted.leads_ascends hshaped hleads hchild).2
  rw [Node.key?, horigin]
  rfl

theorem Sorted.below_branch_ascends [Std.TransCmp order] (hshaped : trie.Shaped)
    (hsorted : Sorted order trie) {id : Nat} {node : Node α} {branch : Branch α} {keys : List α}
    (hnode : trie.node id = .ok node) (hbranch : branch ∈ node.branches)
    (hkeys : keys ∈ trie.storedBelow branch.child) :
    order.Ascends (branch.key :: keys) := by
  obtain ⟨child, hchild, _⟩ := hshaped.linked id node branch hnode hbranch
  obtain ⟨finish, _, hleads, _⟩ :=
    (hshaped.mem_storedBelow_iff (lt_size_of_node hchild)).mp hkeys
  exact hsorted.branch_ascends hshaped hnode hbranch hleads

end Containment.Trie
