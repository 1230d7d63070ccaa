import Containment.Proofs.Trie.Traversal

namespace Containment.Trie

variable {α : Type} {trie : Trie α} {order : Order α}

/-! The path to a node as a value; a trie in shape has one for each of its nodes. -/

def pathOf (trie : Trie α) (id : NodeId) : List α :=
  match trie.pathTo id with
  | .ok keys => keys
  | .error _ => []

namespace Shaped

variable {id : Nat} {node : Node α}

theorem pathOf_of_leads (hshaped : trie.Shaped) {keys : List α}
    (hleads : trie.Leads root keys id) : trie.pathOf id = keys := by
  unfold pathOf
  rw [hshaped.pathTo_of_leads hleads]

theorem leads_pathOf (hshaped : trie.Shaped) (hid : id < trie.nodes.size) :
    trie.Leads root (trie.pathOf id) id := by
  obtain ⟨keys, hleads⟩ := hshaped.exists_leads hid
  rwa [hshaped.pathOf_of_leads hleads]

theorem pathTo_eq (hshaped : trie.Shaped) (hid : id < trie.nodes.size) :
    trie.pathTo id = .ok (trie.pathOf id) :=
  hshaped.pathTo_of_leads (hshaped.leads_pathOf hid)

theorem pathOf_root (hshaped : trie.Shaped) : trie.pathOf root = [] := by
  obtain ⟨_, hroot, _⟩ := hshaped.rooted
  exact hshaped.pathOf_of_leads (.here hroot)

theorem length_pathOf (hshaped : trie.Shaped) (hnode : trie.node id = .ok node) :
    (trie.pathOf id).length = node.depth :=
  (hshaped.length_of_leads (hshaped.leads_pathOf (lt_size_of_node hnode)) hnode).symm

theorem pathOf_child (hshaped : trie.Shaped) {branch : Branch α}
    (hnode : trie.node id = .ok node) (hbranch : branch ∈ node.branches) :
    trie.pathOf branch.child = trie.pathOf id ++ [branch.key] := by
  have hleads := hshaped.leads_pathOf (lt_size_of_node hnode)
  exact hshaped.pathOf_of_leads (hleads.snoc hshaped hnode hbranch)

theorem pathOf_finish (hshaped : trie.Shaped) (hid : id < trie.nodes.size) {route : Route α}
    (hroute : route ∈ trie.routes id) :
    trie.pathOf route.finish = trie.pathOf id ++ route.keys :=
  hshaped.pathOf_of_leads
    ((hshaped.leads_pathOf hid).append ((hshaped.mem_routes_iff hid).mp hroute))

end Shaped

/-! The stored sequences through a node that go on from it in a given way and are
fit as a whole. Every search finds sequences of this kind. -/

def selected (trie : Trie α) (id : NodeId) (goesOn fits : List α → Bool) :
    List (List α) :=
  (((trie.storedBelow id).filter goesOn).map (trie.pathOf id ++ ·)).filter fits

section Selected

variable {id : Nat} {node : Node α} {goesOn otherwise fits : List α → Bool}

theorem selected_congr
    (hgoes : ∀ keys ∈ trie.storedBelow id, goesOn keys = otherwise keys) :
    trie.selected id goesOn fits = trie.selected id otherwise fits := by
  unfold selected
  rw [List.filter_congr hgoes]

theorem selected_eq_nil (hnone : ∀ keys ∈ trie.storedBelow id, goesOn keys = false) :
    trie.selected id goesOn fits = [] := by
  have hfilter : (trie.storedBelow id).filter goesOn = [] := by
    apply List.filter_eq_nil_iff.mpr
    intro keys hkeys
    rw [hnone keys hkeys]
    exact Bool.false_ne_true
  unfold selected
  rw [hfilter]
  rfl

theorem Shaped.selected_root (hshaped : trie.Shaped) :
    trie.selected root goesOn fits =
      (trie.storedBelow root).filter fun keys => goesOn keys && fits keys := by
  unfold selected
  rw [hshaped.pathOf_root]
  simp only [List.nil_append, List.map_id', List.filter_filter, Bool.and_comm]

/-- Below a branch the key of the branch is the first to go on with. -/
private theorem select_branch (hshaped : trie.Shaped) {branch : Branch α}
    (hnode : trie.node id = .ok node) (hbranch : branch ∈ node.branches) :
    ((((trie.storedBelow branch.child).map (branch.key :: ·)).filter goesOn).map
        (trie.pathOf id ++ ·)).filter fits =
      trie.selected branch.child (fun keys => goesOn (branch.key :: keys)) fits := by
  have hpath : (trie.pathOf id ++ ·) ∘ (branch.key :: ·) =
      (trie.pathOf branch.child ++ ·) := by
    funext keys
    simp [hshaped.pathOf_child hnode hbranch]
  have hgoes : ((trie.storedBelow branch.child).map (branch.key :: ·)).filter goesOn =
      ((trie.storedBelow branch.child).filter fun keys =>
        goesOn (branch.key :: keys)).map (branch.key :: ·) := List.filter_map
  rw [hgoes, List.map_map, hpath]
  rfl

theorem Shaped.selected_eq (hshaped : trie.Shaped) (hnode : trie.node id = .ok node) :
    trie.selected id goesOn fits =
      (if node.terminal && goesOn [] && fits (trie.pathOf id) then [trie.pathOf id]
        else []) ++
      node.branches.flatMap fun branch =>
        trie.selected branch.child (fun keys => goesOn (branch.key :: keys)) fits := by
  have hhere : ((((if node.terminal then [[]] else []) : List (List α)).filter goesOn).map
      (trie.pathOf id ++ ·)).filter fits =
        if node.terminal && goesOn [] && fits (trie.pathOf id) then [trie.pathOf id]
        else [] := by
    cases node.terminal <;> cases hgoes : goesOn [] <;> simp [List.filter_cons, hgoes]
  rw [selected, hshaped.storedBelow_eq hnode, List.filter_append, List.map_append,
    List.filter_append, hhere, List.filter_flatMap, List.map_flatMap, List.filter_flatMap]
  congr 1
  apply List.flatMap_congr
  intro branch hbranch
  exact select_branch hshaped hnode hbranch

end Selected

/-! Collecting visits every node below the first one and yields the stored sequences
that pass through it, the shorter ones left out. -/

def longer (trie : Trie α) (shortest : Nat) (id : NodeId) : List (List α) :=
  trie.selected id (fun _ => true) fun keys => shortest < keys.length

namespace Shaped

variable {shortest : Nat} {id : Nat} {node : Node α}

theorem collectVisit_eq (hshaped : trie.Shaped) (hnode : trie.node id = .ok node) :
    trie.collectVisit shortest id = .ok
      { yields := if node.terminal && shortest < node.depth then [trie.pathOf id] else []
        next := node.children } := by
  have hpath := hshaped.pathTo_eq (lt_size_of_node hnode)
  unfold collectVisit
  rw [hnode, Except.ok_bind]
  split
  · rw [hpath]
    rfl
  · rfl

theorem descends_collectVisit (hshaped : trie.Shaped) (shortest : Nat) :
    Descends trie (fun id => id) (trie.collectVisit shortest) := by
  intro id node hnode
  refine ⟨_, hshaped.collectVisit_eq hnode, ?_⟩
  rw [List.map_id']

private theorem collectVisit_longer (hshaped : trie.Shaped) (id : NodeId)
    (found : Visit NodeId (List α)) (hid : id < trie.nodes.size)
    (hvisit : trie.collectVisit shortest id = .ok found) :
    (∀ next ∈ found.next, next < trie.nodes.size) ∧
      found.yields ++ found.next.flatMap (trie.longer shortest) =
        trie.longer shortest id := by
  obtain ⟨node, hnode⟩ := exists_node hid
  rw [hshaped.collectVisit_eq hnode] at hvisit
  cases hvisit
  refine ⟨fun _ hchild => hshaped.child_lt_size hnode hchild, ?_⟩
  rw [longer, hshaped.selected_eq hnode, hshaped.length_pathOf hnode, Bool.and_true,
    Node.children, List.flatMap_map]
  rfl

theorem collect_eq (hshaped : trie.Shaped) (hid : id < trie.nodes.size) :
    trie.collect id shortest = .ok (trie.longer shortest id) := by
  obtain ⟨visited, hwalk, htraversal, _⟩ :=
    (hshaped.descends_collectVisit shortest).exists_walk hshaped id hid
  have hharvest : harvest visited = [id].flatMap (trie.longer shortest) := by
    refine htraversal.flatMap_eq (fun id => id < trie.nodes.size) Visited.yields _
      hshaped.collectVisit_longer ?_
    intro item hitem
    rwa [List.mem_singleton.mp hitem]
  rw [List.flatMap_singleton] at hharvest
  unfold collect
  rw [hwalk, ← hharvest]
  rfl

theorem sequences_eq (hshaped : trie.Shaped) :
    trie.sequences = .ok (trie.storedBelow root) := by
  have hcollect : trie.collect root 0 = _ := hshaped.collect_eq hshaped.size_pos
  rw [sequences, hcollect, longer, hshaped.selected_root]
  congr 1
  apply List.filter_eq_self.mpr
  intro keys hkeys
  have hne := hshaped.stores_ne_nil (hshaped.mem_storedBelow_root_iff.mp hkeys)
  rw [Bool.true_and]
  exact decide_eq_true (List.length_pos_iff.mpr hne)

end Shaped

end Containment.Trie
