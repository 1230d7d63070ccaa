import Containment.Proofs.Trie.Change
import Containment.Proofs.Trie.Generations
import Containment.Proofs.Trie.SubsetSearch
import Containment.Proofs.Trie.SupersetSearch

namespace Containment.Trie

variable {α ω : Type} {trie : Trie α}

/-! A search from the root that comes to no node twice. `found` names the nodes whose
paths a visit shows. Nothing is asked of the comparison that the search goes by. -/

structure Searches (trie : Trie α) (place : ω → NodeId)
    (visit : ω → Except Fault (Visit ω (List α))) (found : ω → List NodeId) (first : ω)
    (visited : List (Visited ω (List α))) : Prop where
  /-- The search comes to its end by itself. -/
  ends : Traversal visit [first] visited
  pushed_once : ((pushed visit [first] visited).map place).Nodup
  bounded : (Findings.ofVisited visited).visited ≤ trie.nodeCount + 1
  shown : (Findings.ofVisited visited).sets =
    (visited.flatMap fun entry => found entry.item).map trie.pathOf
  found_once : (visited.flatMap fun entry => found entry.item).Nodup

/-- What one visit may take of the nodes below its item: those it finds, and the subtrees
it leaves to later visits, apart from each other. -/
structure Spends (trie : Trie α) (place : ω → NodeId) (found below : ω → List NodeId)
    (item : ω) (visit : Visit ω (List α)) : Prop where
  yields : visit.yields = (found item).map trie.pathOf
  inside : ∀ next ∈ visit.next, place next < trie.nodes.size
  apart : (found item ++ visit.next.flatMap below).Subperm (below item)

theorem Shaped.exists_searches (hshaped : trie.Shaped) {place : ω → NodeId}
    {visit : ω → Except Fault (Visit ω (List α))} {found below : ω → List NodeId}
    (hdescends : Descends trie place visit)
    (hspends : ∀ item result, place item < trie.nodes.size → visit item = .ok result →
      trie.Spends place found below item result)
    (hbelow : ∀ item, place item < trie.nodes.size → (below item).Nodup)
    (first : ω) (hfirst : place first = root) :
    ∃ visited, walk visit trie.nodes.size [first] = .ok visited ∧
      trie.Searches place visit found first visited := by
  have hroot : place first < trie.nodes.size := by
    rw [hfirst]
    exact hshaped.size_pos
  have hgood : ∀ item ∈ [first], place item < trie.nodes.size :=
    List.forall_mem_singleton.mpr hroot
  obtain ⟨visited, hwalk, htraversal, hbound⟩ := hdescends.exists_walk hshaped first hroot
  refine ⟨visited, hwalk, htraversal, ?_, ?_, ?_, ?_⟩
  · have hplaces := htraversal.pushed_perm.map place
    rw [List.map_map] at hplaces
    exact hplaces.nodup_iff.mpr (nodup_of_subperm hbound (hshaped.descendants_nodup hroot))
  · have hlength := hbound.length_le
    have hlimit := hshaped.length_descendants_le hroot
    have hsize := hshaped.size_pos
    rw [List.length_map] at hlength
    simp only [Findings.ofVisited, nodeCount]
    omega
  · rw [Findings.ofVisited, harvest, List.map_flatMap]
    apply List.flatMap_congr
    intro entry hentry
    obtain ⟨hitem, result, hvisit, hyields⟩ := htraversal.visit_of_mem
      (fun item => place item < trie.nodes.size)
      (fun item result hitem hvisit => (hspends item result hitem hvisit).inside) hgood hentry
    rw [← hyields, (hspends entry.item result hitem hvisit).yields]
  · have hfound := htraversal.flatMap_subperm (fun item => place item < trie.nodes.size)
      (fun entry => found entry.item) below (fun item result hitem hvisit =>
        ⟨(hspends item result hitem hvisit).inside, (hspends item result hitem hvisit).apart⟩)
      hgood
    rw [List.flatMap_singleton] at hfound
    exact nodup_of_subperm hfound (hbelow first hroot)

/-! The search for subsets finds children of the node it visits and goes on below them. -/

/-- The proper descendants of a node. -/
def offspring (trie : Trie α) (id : NodeId) : List NodeId :=
  (trie.childrenAt id).flatMap trie.descendants

theorem Shaped.descendants_eq_cons (hshaped : trie.Shaped) {id : Nat}
    (hid : id < trie.nodes.size) : trie.descendants id = id :: trie.offspring id := by
  obtain ⟨node, hnode⟩ := exists_node hid
  rw [hshaped.descendants_eq hnode, offspring, childrenAt_of_node hnode]

theorem Shaped.offspring_nodup (hshaped : trie.Shaped) {id : Nat}
    (hid : id < trie.nodes.size) : (trie.offspring id).Nodup := by
  have hnodup := hshaped.descendants_nodup hid
  rw [hshaped.descendants_eq_cons hid] at hnodup
  exact hnodup.of_cons

def sharedChildren (trie : Trie α) (order : Order α) (item : SubsetItem α) : List NodeId :=
  (sharedWith order (trie.nodeAt item.node).branches item.remaining).map
    fun shared => shared.branch.child

def subsetFound (trie : Trie α) (order : Order α) (size : Nat) (item : SubsetItem α) :
    List NodeId :=
  (trie.sharedChildren order item).filter fun id =>
    trie.terminalAt id && (trie.pathOf id).length < size

theorem sharedChildren_sublist (order : Order α) (item : SubsetItem α) :
    (trie.sharedChildren order item).Sublist (trie.childrenAt item.node) := by
  have hbranches := (branch_sharedWith_sublist order (trie.nodeAt item.node).branches
    item.remaining).map Branch.child
  rwa [List.map_map] at hbranches

private theorem flatMap_storedHere (size : Nat) (ids : List NodeId) :
    ids.flatMap (trie.storedHere size) =
      (ids.filter fun id => trie.terminalAt id && (trie.pathOf id).length < size).map
        trie.pathOf := by
  induction ids with
  | nil => rfl
  | cons id ids induction =>
      rw [List.flatMap_cons, induction, List.filter_cons, storedHere]
      split <;> rfl

theorem Shaped.subsetVisit_spends (hshaped : trie.Shaped) (order : Order α) (size : Nat)
    (item : SubsetItem α) (result : Visit (SubsetItem α) (List α))
    (hitem : item.node < trie.nodes.size)
    (hvisit : trie.subsetVisit order size item = .ok result) :
    trie.Spends SubsetItem.node (trie.subsetFound order size)
      (fun item => trie.offspring item.node) item result := by
  obtain ⟨node, hnode⟩ := exists_node hitem
  have hchildren := trie.sharedChildren_sublist order item
  have hinside : ∀ child ∈ trie.sharedChildren order item, child < trie.nodes.size := by
    intro child hchild
    have hbelow := hchildren.subset hchild
    rw [childrenAt_of_node hnode] at hbelow
    exact hshaped.child_lt_size hnode hbelow
  have hplaces : (result.next.map SubsetItem.node).Subperm (trie.sharedChildren order item) := by
    rw [hshaped.subsetVisit_eq order hnode] at hvisit
    cases hvisit
    rw [sharedChildren, nodeAt_of_node hnode]
    exact shareNext_places_subperm _
  constructor
  case yields =>
    rw [hshaped.subsetVisit_eq order hnode] at hvisit
    cases hvisit
    rw [subsetFound, ← flatMap_storedHere, sharedChildren, nodeAt_of_node hnode,
      List.flatMap_map]
  case inside =>
    intro next hnext
    exact hinside next.node (hplaces.subset (List.mem_map_of_mem hnext))
  case apart =>
    have hsplit : (trie.sharedChildren order item).flatMap trie.descendants =
        (trie.sharedChildren order item).flatMap fun id => id :: trie.offspring id := by
      apply List.flatMap_congr
      intro child hchild
      exact hshaped.descendants_eq_cons (hinside child hchild)
    have hlater := subperm_flatMap trie.offspring hplaces
    rw [List.flatMap_map] at hlater
    have hboth := List.map_append_flatMap_perm (trie.sharedChildren order item) (fun id => id)
      trie.offspring
    rw [List.map_id', ← hsplit] at hboth
    exact (List.filter_sublist.subperm.append hlater).trans
      (hboth.subperm.trans (hchildren.flatMap trie.descendants).subperm)

/-! The search for supersets finds, once nothing is required any more, the ends of all
longer sequences that pass through the node. -/

def supersetFound (trie : Trie α) (size : Nat) (item : SupersetItem α) : List NodeId :=
  if item.required.isEmpty then
    (trie.descendants item.node).filter fun id =>
      trie.terminalAt id && size < (trie.pathOf id).length
  else []

theorem Shaped.longer_eq (hshaped : trie.Shaped) {shortest : Nat} {id : Nat}
    (hid : id < trie.nodes.size) :
    trie.longer shortest id =
      ((trie.descendants id).filter fun finish =>
        trie.terminalAt finish && shortest < (trie.pathOf finish).length).map trie.pathOf := by
  have hpath : ∀ route ∈ trie.routes id,
      trie.pathOf route.finish = trie.pathOf id ++ route.keys :=
    fun _ hroute => hshaped.pathOf_finish hid hroute
  have hselected : trie.longer shortest id =
      ((trie.routes id).filter fun route =>
        shortest < (trie.pathOf id ++ route.keys).length && trie.terminalAt route.finish).map
          fun route => trie.pathOf id ++ route.keys := by
    simp only [longer, selected, storedBelow, List.map_map, List.filter_map,
      List.filter_filter]
    rfl
  have hdescendants : ((trie.descendants id).filter fun finish =>
      trie.terminalAt finish && shortest < (trie.pathOf finish).length).map trie.pathOf =
        ((trie.routes id).filter fun route => trie.terminalAt route.finish &&
          shortest < (trie.pathOf route.finish).length).map
            fun route => trie.pathOf route.finish := by
    rw [descendants, List.filter_map, List.map_map]
    rfl
  have hfits : ((trie.routes id).filter fun route =>
      shortest < (trie.pathOf id ++ route.keys).length && trie.terminalAt route.finish) =
        (trie.routes id).filter fun route => trie.terminalAt route.finish &&
          shortest < (trie.pathOf route.finish).length := by
    apply List.filter_congr
    intro route hroute
    rw [hpath route hroute, Bool.and_comm]
  rw [hselected, hdescendants, hfits]
  apply List.map_congr_left
  intro route hroute
  exact (hpath route (List.mem_of_mem_filter hroute)).symm

theorem Shaped.supersetVisit_spends (hshaped : trie.Shaped) (order : Order α) (size : Nat)
    (item : SupersetItem α) (result : Visit (SupersetItem α) (List α))
    (hitem : item.node < trie.nodes.size)
    (hvisit : trie.supersetVisit order size item = .ok result) :
    trie.Spends SupersetItem.node (trie.supersetFound size)
      (fun item => trie.descendants item.node) item result := by
  obtain ⟨id, required⟩ := item
  cases required with
  | nil =>
      rw [hshaped.supersetVisit_nil order hitem] at hvisit
      cases hvisit
      refine ⟨hshaped.longer_eq hitem, fun _ hnext => absurd hnext List.not_mem_nil, ?_⟩
      rw [coveredVisit, List.flatMap_nil, List.append_nil]
      exact List.filter_sublist.subperm
  | cons next later =>
      obtain ⟨node, hnode⟩ := exists_node hitem
      have hpromising := (promising_sublist order node next).map Branch.child
      have hplaces : ((promising order node next).map (supersetNext order next later)).map
          SupersetItem.node = (promising order node next).map Branch.child := by
        rw [List.map_map]
        apply List.map_congr_left
        intro branch _
        exact supersetNext_node order next later branch
      rw [supersetVisit_cons order hnode] at hvisit
      cases hvisit
      refine ⟨rfl, ?_, ?_⟩
      · intro other hother
        have hchild := hpromising.subset (hplaces ▸ List.mem_map_of_mem hother)
        exact hshaped.child_lt_size hnode hchild
      · have hlater := (hpromising.flatMap trie.descendants).cons id
        rw [← hplaces, List.flatMap_map] at hlater
        rw [hshaped.descendants_eq hnode]
        exact hlater.subperm

/-! Collecting visits a subtree and nothing else. -/

theorem Shaped.collect_visits (hshaped : trie.Shaped) {id : Nat} (hid : id < trie.nodes.size)
    (shortest : Nat) :
    ∃ visited, trie.collect id shortest = .ok (harvest visited) ∧
      Traversal (trie.collectVisit shortest) [id] visited ∧
      visited.map Visited.item = trie.descendants id := by
  obtain ⟨visited, hwalk, htraversal, _⟩ :=
    (hshaped.descends_collectVisit shortest).exists_walk hshaped id hid
  refine ⟨visited, ?_, htraversal, ?_⟩
  · rw [collect, hwalk]
    rfl
  · have hitems := htraversal.flatMap_eq (fun id => id < trie.nodes.size)
      (fun entry => [entry.item]) trie.descendants ?_ ?_
    · rwa [← List.map_eq_flatMap, List.flatMap_singleton] at hitems
    · intro item found hitem hvisit
      obtain ⟨node, hnode⟩ := exists_node hitem
      rw [hshaped.collectVisit_eq hnode] at hvisit
      cases hvisit
      exact ⟨fun _ hchild => hshaped.child_lt_size hnode hchild,
        (hshaped.descendants_eq hnode).symm⟩
    · exact List.forall_mem_singleton.mpr hid

/-- Every way of going through the trie comes to an end by itself, and to each node once. -/
structure TraversedOnce (trie : Trie α) : Prop where
  subsets : ∀ (order : Order α) (query : Canonical α), ∃ visited,
    trie.properSubsets order query = .ok (Findings.ofVisited visited) ∧
    trie.Searches SubsetItem.node (trie.subsetVisit order query.elements.length)
      (trie.subsetFound order query.elements.length)
      { node := root, remaining := query.elements } visited
  supersets : ∀ (order : Order α) (query : Canonical α), ∃ visited,
    trie.properSupersets order query = .ok (Findings.ofVisited visited) ∧
    trie.Searches SupersetItem.node (trie.supersetVisit order query.elements.length)
      (trie.supersetFound query.elements.length)
      { node := root, required := query.elements } visited
  collections : ∀ id < trie.nodes.size, ∀ shortest, ∃ visited,
    trie.collect id shortest = .ok (harvest visited) ∧
    Traversal (trie.collectVisit shortest) [id] visited ∧
    (visited.map Visited.item).Nodup ∧
    ∀ other, other ∈ visited.map Visited.item ↔ ∃ keys, trie.Leads id keys other
  paths : ∀ (id : Nat) node, trie.node id = .ok node →
    trie.pathTo id = .ok (trie.pathOf id) ∧ (trie.pathOf id).length = node.depth
  dump : trie.DumpedOnce

theorem Shaped.traversedOnce (hshaped : trie.Shaped) : trie.TraversedOnce where
  subsets := by
    intro order query
    obtain ⟨visited, hwalk, hsearches⟩ := hshaped.exists_searches
      (hshaped.descends_subsetVisit order query.elements.length)
      (hshaped.subsetVisit_spends order query.elements.length)
      (fun _ hitem => hshaped.offspring_nodup hitem)
      { node := root, remaining := query.elements } rfl
    exact ⟨visited, properSubsets_of_walk hwalk, hsearches⟩
  supersets := by
    intro order query
    obtain ⟨visited, hwalk, hsearches⟩ := hshaped.exists_searches
      (hshaped.descends_supersetVisit order query.elements.length)
      (hshaped.supersetVisit_spends order query.elements.length)
      (fun _ hitem => hshaped.descendants_nodup hitem)
      { node := root, required := query.elements } rfl
    exact ⟨visited, properSupersets_of_walk hwalk, hsearches⟩
  collections := by
    intro id hid shortest
    obtain ⟨visited, hcollect, htraversal, hitems⟩ := hshaped.collect_visits hid shortest
    refine ⟨visited, hcollect, htraversal, ?_, ?_⟩
    · rw [hitems]
      exact hshaped.descendants_nodup hid
    · intro other
      rw [hitems]
      exact hshaped.mem_descendants_iff hid
  paths := fun _ _ hnode =>
    ⟨hshaped.pathTo_eq (lt_size_of_node hnode), hshaped.length_pathOf hnode⟩
  dump := hshaped.dumpedOnce

/-- Whatever comparisons the trie has grown by and is searched by. -/
theorem grown_traversedOnce (changes : List (Change α)) : (grown changes).TraversedOnce :=
  (grown_shaped changes).traversedOnce

end Containment.Trie
