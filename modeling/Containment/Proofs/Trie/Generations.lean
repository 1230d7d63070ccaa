import Containment.Proofs.Trie.Dump

namespace Containment.Trie

variable {α : Type} {trie : Trie α}

/-! The nodes that a dump goes through, one row for each generation. -/

def rowsFrom (trie : Trie α) : Nat → List NodeId → List (List NodeId)
  | _, [] => []
  | 0, _ :: _ => []
  | budget + 1, generation =>
      generation :: trie.rowsFrom budget (generation.flatMap trie.childrenAt)

def rows (trie : Trie α) : List (List NodeId) :=
  trie.rowsFrom trie.nodes.size [root]

/-- The nodes that are written, in their turn: each under the key of its branch, in the
entry of its parent. -/
def written (trie : Trie α) : List NodeId :=
  trie.rows.flatten.flatMap trie.childrenAt

theorem listing_eq_rowsFrom (budget : Nat) (generation : List NodeId) :
    trie.listing budget generation =
      (trie.rowsFrom budget generation).map fun row => row.map trie.entryAt := by
  fun_induction rowsFrom trie budget generation with
  | case1 => rw [listing, List.map_nil]
  | case2 => rw [listing, List.map_nil]
  | case3 budget generation hne induction =>
      rw [listing, induction, List.map_cons]
      exact hne

theorem ne_nil_of_mem_rowsFrom {budget : Nat} {generation row : List NodeId}
    (hrow : row ∈ trie.rowsFrom budget generation) : row ≠ [] := by
  fun_induction rowsFrom trie budget generation with
  | case1 => contradiction
  | case2 => contradiction
  | case3 budget generation hne induction =>
      rcases List.mem_cons.mp hrow with rfl | hlater
      · exact hne
      · exact induction hlater

theorem rowsFrom_eq_cons {budget : Nat} {generation row : List NodeId}
    {rows : List (List NodeId)} (hrows : trie.rowsFrom budget generation = row :: rows) :
    row = generation ∧
      ∃ less, rows = trie.rowsFrom less (generation.flatMap trie.childrenAt) := by
  revert hrows
  fun_cases rowsFrom trie budget generation with
  | case1 => nofun
  | case2 => nofun
  | case3 budget _ _ =>
      intro hrows
      obtain ⟨hrow, hlater⟩ := List.cons.inj hrows
      exact ⟨hrow.symm, budget, hlater.symm⟩

theorem childrenAt_of_node {id : NodeId} {node : Node α} (hnode : trie.node id = .ok node) :
    trie.childrenAt id = node.children := by
  rw [childrenAt, nodeAt_of_node hnode]

/-! Each generation is one step deeper than the last. -/

def AtDepth (trie : Trie α) (depth : Nat) (generation : List NodeId) : Prop :=
  ∀ id ∈ generation, ∃ node, trie.node id = .ok node ∧ node.depth = depth

namespace Shaped

theorem atDepth_root (hshaped : trie.Shaped) : trie.AtDepth 0 [root] := by
  intro id hid
  obtain rfl := List.mem_singleton.mp hid
  obtain ⟨node, hroot, _, hdepth, _⟩ := hshaped.rooted
  exact ⟨node, hroot, hdepth⟩

theorem atDepth_children (hshaped : trie.Shaped) {depth : Nat} {generation : List NodeId}
    (hat : trie.AtDepth depth generation) :
    trie.AtDepth (depth + 1) (generation.flatMap trie.childrenAt) := by
  intro child hchild
  obtain ⟨id, hid, hbelow⟩ := List.mem_flatMap.mp hchild
  obtain ⟨node, hnode, hdepth⟩ := hat id hid
  rw [childrenAt_of_node hnode] at hbelow
  obtain ⟨below, hfound, _, hdeeper⟩ := hshaped.node_of_child hnode hbelow
  exact ⟨below, hfound, by rw [hdeeper, hdepth]⟩

theorem atDepth_rowsFrom (hshaped : trie.Shaped) {budget depth position : Nat}
    {generation row : List NodeId} (hat : trie.AtDepth depth generation)
    (hrow : (trie.rowsFrom budget generation)[position]? = some row) :
    trie.AtDepth (depth + position) row := by
  fun_induction rowsFrom trie budget generation generalizing depth position with
  | case1 => contradiction
  | case2 => contradiction
  | case3 budget generation _ induction =>
      cases position with
      | zero =>
          obtain rfl : generation = row := Option.some.inj hrow
          exact hat
      | succ position =>
          have hlater := induction (hshaped.atDepth_children hat) hrow
          rwa [Nat.add_right_comm, Nat.add_assoc] at hlater

/-! Together the generations are all that hangs below the first of them: none is so
deep that the budget is spent before the children are gone through. -/

theorem flatten_rowsFrom_perm (hshaped : trie.Shaped) {budget depth : Nat}
    {generation : List NodeId} (hat : trie.AtDepth depth generation)
    (hbudget : trie.nodes.size ≤ depth + budget) :
    (trie.rowsFrom budget generation).flatten.Perm (generation.flatMap trie.descendants) := by
  fun_induction rowsFrom trie budget generation generalizing depth with
  | case1 => exact .refl _
  | case2 id rest =>
      obtain ⟨node, hnode, hdepth⟩ := hat id List.mem_cons_self
      have hold := hshaped.depth_le hnode
      have hsize := lt_size_of_node hnode
      omega
  | case3 budget generation _ induction =>
      have hlater := induction (hshaped.atDepth_children hat) (by omega)
      have hbelow : generation.flatMap trie.descendants =
          generation.flatMap fun id => id :: (trie.childrenAt id).flatMap trie.descendants := by
        apply List.flatMap_congr
        intro id hid
        obtain ⟨node, hnode, _⟩ := hat id hid
        rw [hshaped.descendants_eq hnode, childrenAt_of_node hnode]
      have hsplit := List.map_append_flatMap_perm generation (fun id => id)
        fun id => (trie.childrenAt id).flatMap trie.descendants
      rw [List.map_id', ← List.flatMap_assoc] at hsplit
      rw [List.flatten_cons, hbelow]
      exact (hlater.append_left generation).trans hsplit

theorem flatten_rows_perm (hshaped : trie.Shaped) :
    trie.rows.flatten.Perm (trie.descendants root) := by
  have hperm : trie.rows.flatten.Perm ([root].flatMap trie.descendants) :=
    hshaped.flatten_rowsFrom_perm hshaped.atDepth_root (Nat.le_add_left _ _)
  rwa [List.flatMap_singleton] at hperm

theorem length_flatten_rows (hshaped : trie.Shaped) :
    trie.rows.flatten.length = trie.nodes.size := by
  rw [hshaped.flatten_rows_perm.length_eq, hshaped.descendants_root_perm.length_eq,
    List.length_range]

theorem mem_flatten_rows_iff (hshaped : trie.Shaped) {id : Nat} :
    id ∈ trie.rows.flatten ↔ ∃ node, trie.node id = .ok node := by
  have hroot : root < trie.nodes.size := hshaped.size_pos
  rw [hshaped.flatten_rows_perm.mem_iff, hshaped.mem_descendants_iff hroot]
  constructor
  · rintro ⟨_, hleads⟩
    exact hleads.finish_node
  · rintro ⟨node, hnode⟩
    exact hshaped.exists_leads (lt_size_of_node hnode)

theorem exists_row (hshaped : trie.Shaped) {id : Nat} {node : Node α}
    (hnode : trie.node id = .ok node) :
    ∃ row, trie.rows[node.depth]? = some row ∧ id ∈ row := by
  obtain ⟨row, hmem, hid⟩ := List.mem_flatten.mp (hshaped.mem_flatten_rows_iff.mpr ⟨node, hnode⟩)
  obtain ⟨position, hrow⟩ := List.getElem?_of_mem hmem
  obtain ⟨found, hfound, hdepth⟩ := hshaped.atDepth_rowsFrom hshaped.atDepth_root hrow id hid
  obtain rfl := node_unique hnode hfound
  rw [Nat.zero_add] at hdepth
  exact ⟨row, by rw [hdepth]; exact hrow, hid⟩

theorem rows_ne_nil (hshaped : trie.Shaped) : trie.rows ≠ [] := by
  obtain ⟨_, hroot, _⟩ := hshaped.rooted
  obtain ⟨_, hrow, _⟩ := hshaped.exists_row hroot
  exact List.ne_nil_of_mem (List.mem_of_getElem? hrow)

/-! A node is a child of one node only, so it is written once. -/

theorem written_nodup (hshaped : trie.Shaped) : trie.written.Nodup := by
  have hnodup : trie.rows.flatten.Nodup :=
    hshaped.flatten_rows_perm.nodup_iff.mpr (hshaped.descendants_nodup hshaped.size_pos)
  rw [written, List.nodup_flatMap]
  refine ⟨?_, hnodup.imp_of_mem ?_⟩
  · intro id hid
    obtain ⟨node, hnode⟩ := hshaped.mem_flatten_rows_iff.mp hid
    rw [childrenAt_of_node hnode]
    exact hshaped.children_nodup id node hnode
  · intro left right hleft hright hne child hleftChild hrightChild
    obtain ⟨leftNode, hleftNode⟩ := hshaped.mem_flatten_rows_iff.mp hleft
    obtain ⟨rightNode, hrightNode⟩ := hshaped.mem_flatten_rows_iff.mp hright
    rw [childrenAt_of_node hleftNode] at hleftChild
    rw [childrenAt_of_node hrightNode] at hrightChild
    obtain ⟨leftBranch, hleftBranch, rfl⟩ := List.mem_map.mp hleftChild
    obtain ⟨rightBranch, hrightBranch, hsame⟩ := List.mem_map.mp hrightChild
    exact hne (hshaped.owner_unique hleftNode hrightNode hleftBranch hrightBranch hsame.symm).1

theorem mem_written_iff (hshaped : trie.Shaped) {id : Nat} :
    id ∈ trie.written ↔ id < trie.nodes.size ∧ id ≠ root := by
  rw [written, List.mem_flatMap]
  constructor
  · rintro ⟨parent, hparent, hchild⟩
    obtain ⟨owner, howner⟩ := hshaped.mem_flatten_rows_iff.mp hparent
    rw [childrenAt_of_node howner] at hchild
    obtain ⟨below, hbelow, hlt, _⟩ := hshaped.node_of_child howner hchild
    exact ⟨lt_size_of_node hbelow, Nat.ne_of_gt (Nat.zero_lt_of_lt hlt)⟩
  · rintro ⟨hid, hne⟩
    obtain ⟨node, hnode⟩ := exists_node hid
    obtain ⟨key, parent, owner, _, _, howner, _, hbranch⟩ := hshaped.hung id node hnode hne
    refine ⟨parent, hshaped.mem_flatten_rows_iff.mpr ⟨owner, howner⟩, ?_⟩
    rw [childrenAt_of_node howner]
    exact List.mem_map_of_mem hbranch

end Shaped

/-! The marks in a dump are the nodes that are written, and as many of them are marks of
stored sequences as the trie counts. -/

theorem countP_entryAt (trie : Trie α) (id : NodeId) :
    (trie.entryAt id).countP Mark.terminal = (trie.childrenAt id).countP trie.terminalAt := by
  rw [entryAt, childrenAt, Node.children, List.countP_map, List.countP_map]
  rfl

theorem countP_marks (trie : Trie α) :
    (trie.rows.map fun row => row.map trie.entryAt).flatten.flatten.countP Mark.terminal =
      trie.written.countP trie.terminalAt := by
  rw [← List.map_flatten, ← List.flatMap_def, written, List.countP_flatMap, List.countP_flatMap]
  exact congrArg List.sum (List.map_congr_left fun id _ => trie.countP_entryAt id)

theorem Shaped.countP_written (hshaped : trie.Shaped) :
    trie.written.countP trie.terminalAt = trie.stored := by
  have hmissing : root ∉ trie.written := fun hmem => (hshaped.mem_written_iff.mp hmem).2 rfl
  have hperm : (root :: trie.written).Perm (List.range trie.nodes.size) := by
    apply (List.perm_ext_iff_of_nodup (List.nodup_cons.mpr ⟨hmissing, hshaped.written_nodup⟩)
      List.nodup_range).mpr
    intro id
    rw [List.mem_cons, hshaped.mem_written_iff, List.mem_range]
    by_cases hroot : id = root
    · have hpos : root < trie.nodes.size := hshaped.size_pos
      simp [hroot, hpos]
    · simp [hroot]
  have hcount := hperm.countP_eq trie.terminalAt
  obtain ⟨node, hroot, _, _, hunmarked⟩ := hshaped.rooted
  rw [List.countP_cons, terminalAt_of_node hroot, hunmarked, countP_terminalAt_range,
    ← hshaped.counted] at hcount
  exact hcount

/-- A dump goes through the depths there are, a line for each, and writes every node but
the root once. -/
structure DumpedOnce (trie : Trie α) : Prop where
  listed : trie.generations trie.nodes.size [root] =
    .ok (trie.rows.map fun row => row.map trie.entryAt)
  spelled : ∀ spell, trie.dump spell = .ok ("\n".intercalate
    (trie.rows.map fun row => lineText spell (row.map trie.entryAt)))
  ranked : ∀ (depth : Nat) row, trie.rows[depth]? = some row → ∀ id,
    id ∈ row ↔ ∃ node, trie.node id = .ok node ∧ node.depth = depth
  bounded : ∀ (id : Nat) node, trie.node id = .ok node → node.depth < trie.rows.length
  reached : ∃ (id : Nat) (node : Node α), trie.node id = .ok node ∧
    node.depth + 1 = trie.rows.length
  written_once : trie.written.Nodup
  written_all : ∀ id, id ∈ trie.written ↔ id < trie.nodes.size ∧ id ≠ root

private theorem Shaped.exists_deepest (hshaped : trie.Shaped) :
    ∃ (id : Nat) (node : Node α), trie.node id = .ok node ∧
      node.depth + 1 = trie.rows.length := by
  have hlength : 0 < trie.rows.length := List.length_pos_iff.mpr hshaped.rows_ne_nil
  obtain ⟨last, hlast⟩ : ∃ last, trie.rows[trie.rows.length - 1]? = some last :=
    ⟨_, List.getElem?_eq_getElem (by omega)⟩
  -- the last row has a node like every other
  obtain ⟨id, hid⟩ := List.exists_mem_of_ne_nil last
    (ne_nil_of_mem_rowsFrom (List.mem_of_getElem? hlast))
  obtain ⟨node, hnode, hdepth⟩ := hshaped.atDepth_rowsFrom hshaped.atDepth_root hlast id hid
  exact ⟨id, node, hnode, by omega⟩

theorem Shaped.dumpedOnce (hshaped : trie.Shaped) : trie.DumpedOnce where
  listed := by
    rw [hshaped.generations_root, listing_eq_rowsFrom]
    rfl
  spelled := by
    intro spell
    rw [hshaped.dump_eq, listing_eq_rowsFrom, List.map_map]
    rfl
  ranked := by
    intro depth row hrow id
    constructor
    · intro hid
      obtain ⟨node, hnode, hdepth⟩ :=
        hshaped.atDepth_rowsFrom hshaped.atDepth_root hrow id hid
      exact ⟨node, hnode, by omega⟩
    · rintro ⟨node, hnode, rfl⟩
      obtain ⟨other, hother, hid⟩ := hshaped.exists_row hnode
      rw [hrow] at hother
      rwa [Option.some.inj hother]
  bounded := by
    intro id node hnode
    obtain ⟨row, hrow, _⟩ := hshaped.exists_row hnode
    exact (List.getElem?_eq_some_iff.mp hrow).1
  reached := hshaped.exists_deepest
  written_once := hshaped.written_nodup
  written_all := fun _ => hshaped.mem_written_iff

end Containment.Trie
