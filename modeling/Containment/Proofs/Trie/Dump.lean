import Containment.Proofs.Except
import Containment.Proofs.Trie.Likeness
import Containment.Trie.Dump

namespace Containment.Trie

variable {α : Type} {trie left right : Trie α} {order : Order α}

/-! What a dump shows of a trie in shape, told without the failures that cannot
happen there. -/

def nodeAt (trie : Trie α) (id : NodeId) : Node α :=
  match trie.node id with
  | .ok node => node
  | .error _ => .root

theorem nodeAt_of_node {id : NodeId} {node : Node α} (hnode : trie.node id = .ok node) :
    trie.nodeAt id = node := by
  unfold nodeAt
  rw [hnode]

def entryAt (trie : Trie α) (id : NodeId) : List (Mark α) :=
  (trie.nodeAt id).branches.map fun branch =>
    { key := branch.key, terminal := trie.terminalAt branch.child }

def childrenAt (trie : Trie α) (id : NodeId) : List NodeId :=
  (trie.nodeAt id).children

/-- The entries of one generation of nodes after another. -/
def listing (trie : Trie α) : Nat → List NodeId → List (List (List (Mark α)))
  | _, [] => []
  | 0, _ :: _ => []
  | budget + 1, generation =>
      generation.map trie.entryAt :: trie.listing budget (generation.flatMap trie.childrenAt)

/-- A generation so deep that with the budget spent it would be deeper than there are
nodes. -/
def WithinBudget (trie : Trie α) (budget : Nat) (generation : List NodeId) : Prop :=
  ∀ id ∈ generation, ∃ node, trie.node id = .ok node ∧
    node.depth + budget = trie.nodes.size

namespace Shaped

theorem marks_eq (hshaped : trie.Shaped) {id : Nat} {node : Node α}
    (hnode : trie.node id = .ok node) : trie.marks node = .ok (trie.entryAt id) := by
  rw [marks, entryAt, nodeAt_of_node hnode]
  apply Except.mapM_eq_ok
  intro branch hbranch
  obtain ⟨child, hchild, _⟩ := hshaped.linked id node branch hnode hbranch
  rw [hchild, Except.ok_bind, terminalAt_of_node hchild]
  rfl

private theorem next_within (hshaped : trie.Shaped) {budget : Nat} {generation : List NodeId}
    (hwithin : WithinBudget trie (budget + 1) generation) :
    WithinBudget trie budget (generation.flatMap trie.childrenAt) := by
  intro child hchild
  obtain ⟨id, hid, hbelow⟩ := List.mem_flatMap.mp hchild
  obtain ⟨node, hnode, heq⟩ := hwithin id hid
  rw [childrenAt, nodeAt_of_node hnode] at hbelow
  obtain ⟨below, hfound, _, hdepth⟩ := hshaped.node_of_child hnode hbelow
  exact ⟨below, hfound, by omega⟩

theorem generations_eq (hshaped : trie.Shaped) {budget : Nat} {generation : List NodeId}
    (hwithin : WithinBudget trie budget generation) :
    trie.generations budget generation = .ok (trie.listing budget generation) := by
  induction budget generalizing generation with
  | zero =>
      cases generation with
      | nil => rfl
      | cons id rest =>
          -- a node is at most as deep as it is old, so the budget cannot be spent here
          obtain ⟨node, hnode, heq⟩ := hwithin id List.mem_cons_self
          have hdepth := hshaped.depth_le hnode
          have hsize := lt_size_of_node hnode
          omega
  | succ budget induction =>
      cases generation with
      | nil => rfl
      | cons first rest =>
          have hnodes : (first :: rest).mapM trie.node =
              .ok ((first :: rest).map trie.nodeAt) := by
            apply Except.mapM_eq_ok
            intro id hid
            obtain ⟨node, hnode, _⟩ := hwithin id hid
            rw [hnode, nodeAt_of_node hnode]
          have hline : ((first :: rest).map trie.nodeAt).mapM trie.marks =
              .ok ((first :: rest).map trie.entryAt) := by
            rw [List.mapM_map]
            apply Except.mapM_eq_ok
            intro id hid
            obtain ⟨node, hnode, _⟩ := hwithin id hid
            rw [Function.comp_apply, nodeAt_of_node hnode, hshaped.marks_eq hnode]
          have hlater := induction (hshaped.next_within hwithin)
          simp only [generations, hnodes, hline, Except.ok_bind, List.flatMap_map]
          exact congrArg (· >>= _) hlater

theorem generations_root (hshaped : trie.Shaped) :
    trie.generations trie.nodes.size [root] =
      .ok (trie.listing trie.nodes.size [root]) := by
  apply hshaped.generations_eq
  intro id hid
  obtain rfl := List.mem_singleton.mp hid
  obtain ⟨node, hroot, _, hdepth, _⟩ := hshaped.rooted
  exact ⟨node, hroot, by rw [hdepth, Nat.zero_add]⟩

theorem dump_eq (hshaped : trie.Shaped) (spell : α → String) :
    trie.dump spell = .ok ("\n".intercalate
      ((trie.listing trie.nodes.size [root]).map (lineText spell))) := by
  rw [dump, hshaped.generations_root]
  rfl

end Shaped

/-! Where equivalent elements are identical, alike tries are dumped alike. -/

/-- Lists read the same under two readings where they correspond under them. -/
theorem map_eq_map_iff {ι κ ρ : Type} {first : ι → ρ} {second : κ → ρ} {lefts : List ι}
    {rights : List κ} : lefts.map first = rights.map second ↔
      List.Forall₂ (fun left right => first left = second right) lefts rights := by
  rw [← List.forall₂_eq_eq_eq, List.forall₂_map_left_iff, List.forall₂_map_right_iff]

namespace Alike

variable [Std.TransCmp order] (halike : Alike order left right)
  (hidentical : ∀ first second, order first second = .eq → first = second)

include halike

theorem children_twins {leftId rightId : Nat}
    (htwins : Twins order left right leftId rightId) :
    List.Forall₂ (Twins order left right) (left.childrenAt leftId)
      (right.childrenAt rightId) := by
  obtain ⟨leftNode, hleft, rightNode, hright⟩ := htwins.exists_nodes
  rw [childrenAt, childrenAt, nodeAt_of_node hleft, nodeAt_of_node hright, Node.children,
    Node.children, List.forall₂_map_left_iff, List.forall₂_map_right_iff]
  exact (halike.branches htwins hleft hright).imp fun _ _ hpair => hpair.2

include hidentical

theorem entryAt_eq {leftId rightId : Nat} (htwins : Twins order left right leftId rightId) :
    left.entryAt leftId = right.entryAt rightId := by
  obtain ⟨leftNode, hleft, rightNode, hright⟩ := htwins.exists_nodes
  rw [entryAt, entryAt, nodeAt_of_node hleft, nodeAt_of_node hright]
  refine map_eq_map_iff.mpr ((halike.branches htwins hleft hright).imp ?_)
  intro leftBranch rightBranch hpair
  rw [hidentical _ _ hpair.1, halike.terminalAt_eq hpair.2]

theorem listing_eq {budget : Nat} {lefts rights : List NodeId}
    (htwins : List.Forall₂ (Twins order left right) lefts rights) :
    left.listing budget lefts = right.listing budget rights := by
  induction budget generalizing lefts rights with
  | zero => cases htwins <;> rfl
  | succ budget induction =>
      have hlater := induction (List.rel_flatMap htwins fun _ _ => halike.children_twins)
      have hline := map_eq_map_iff.mpr (htwins.imp fun _ _ => halike.entryAt_eq hidentical)
      cases htwins with
      | nil => rfl
      | cons _ _ => exact congrArg₂ List.cons hline hlater

theorem dump_eq (spell : α → String) : left.dump spell = right.dump spell := by
  rw [halike.left_orderly.shaped.dump_eq, halike.right_orderly.shaped.dump_eq,
    halike.size_eq, halike.listing_eq hidentical (.cons halike.roots .nil)]

end Alike

end Containment.Trie
