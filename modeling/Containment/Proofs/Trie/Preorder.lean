import Containment.Proofs.Order.Lexicographic
import Containment.Proofs.Trie.Laid
import Containment.Proofs.Trie.Visits

namespace Containment

namespace Trie

variable {α : Type} {trie : Trie α} {order : Order α}

/-! Collecting with a stack: the node pushed last is taken first, so the children of a node
are pushed in the opposite order. What is found goes behind what was found before. -/

def gather (trie : Trie α) (shortest : Nat) :
    Nat → List NodeId → List (List α) → Except Fault (List (List α))
  | 0, stack, gathered => if stack.isEmpty then return gathered else throw .endless
  | budget + 1, stack, gathered =>
      match stack.getLast? with
      | none => return gathered
      | some id => do
          let found ← trie.collectVisit shortest id
          trie.gather shortest budget (stack.dropLast ++ found.next.reverse)
            (gathered ++ found.yields)

/-- Adds the stored sequences of a subtree that are longer than `shortest` to a list. -/
def collectOnto (trie : Trie α) (id : NodeId) (shortest : Nat) (gathered : List (List α)) :
    Except Fault (List (List α)) :=
  trie.gather shortest trie.nodes.size [id] gathered

@[simp] theorem gather_spent (shortest : Nat) (stack : List NodeId) (id : NodeId)
    (gathered : List (List α)) :
    trie.gather shortest 0 (stack ++ [id]) gathered = .error .endless := by
  rw [gather, if_neg (by simp)]
  rfl

theorem gather_concat (shortest budget : Nat) (stack : List NodeId) (id : NodeId)
    (gathered : List (List α)) :
    trie.gather shortest (budget + 1) (stack ++ [id]) gathered =
      trie.collectVisit shortest id >>= fun found =>
        trie.gather shortest budget (stack ++ found.next.reverse) (gathered ++ found.yields) := by
  rw [gather, List.getLast?_concat, List.dropLast_concat]

/-- What the stack holds, its top first, is what a traversal has pending. -/
theorem gather_eq_walk (trie : Trie α) (shortest budget : Nat) (pending : List NodeId)
    (gathered : List (List α)) :
    trie.gather shortest budget pending.reverse gathered =
      (walk (trie.collectVisit shortest) budget pending).map fun visited =>
        gathered ++ harvest visited := by
  induction budget generalizing pending gathered with
  | zero =>
      cases pending with
      | nil => exact congrArg Except.ok (List.append_nil gathered).symm
      | cons id pending =>
          rw [List.reverse_cons, gather_spent]
          rfl
  | succ budget induction =>
      cases pending with
      | nil => exact congrArg Except.ok (List.append_nil gathered).symm
      | cons id pending =>
          rw [List.reverse_cons, gather_concat, walk]
          cases trie.collectVisit shortest id with
          | error fault => rfl
          | ok found =>
              rw [Except.ok_bind, Except.ok_bind, ← List.reverse_append, induction]
              cases walk (trie.collectVisit shortest) budget (found.next ++ pending) with
              | error fault => rfl
              | ok later =>
                  rw [Except.ok_bind]
                  exact congrArg Except.ok (by simp)

/-- Whatever was gathered before stays in front, and what is added does not depend on it. -/
theorem collectOnto_eq (trie : Trie α) (id : NodeId) (shortest : Nat)
    (gathered : List (List α)) :
    trie.collectOnto id shortest gathered =
      (trie.collect id shortest).map (gathered ++ ·) := by
  have hwalk := trie.gather_eq_walk shortest trie.nodes.size [id] gathered
  rw [List.reverse_singleton] at hwalk
  rw [collectOnto, hwalk, collect]
  cases walk (trie.collectVisit shortest) trie.nodes.size [id] <;> rfl

/-! With every parent before its children, and the children in the order of their keys, the
ways down from a node are listed in the order of sequences. -/

section Ordered

variable [Std.TransCmp order] (hshaped : trie.Shaped) (hsorted : Sorted order trie)
include hshaped hsorted

theorem Sorted.routes_ascend {id : Nat} (hid : id < trie.nodes.size) :
    order.sequences.Ascends ((trie.routes id).map Route.keys) := by
  apply hshaped.descent (motive := fun id =>
    order.sequences.Ascends ((trie.routes id).map Route.keys)) _ hid
  intro id node hnode induction
  have hunder : ∀ branch : Branch α,
      ((trie.routes branch.child).map (Route.under branch.key)).map Route.keys =
        ((trie.routes branch.child).map Route.keys).map ([branch.key] ++ ·) := by
    intro branch
    rw [List.map_map, List.map_map]
    rfl
  rw [hshaped.routes_eq hnode, List.map_cons, List.map_flatMap]
  simp only [hunder]
  refine Order.ascends_cons.mpr ⟨?_, List.pairwise_flatMap.mpr ⟨?_, ?_⟩⟩
  · intro keys hkeys
    obtain ⟨branch, _, hbelow⟩ := List.mem_flatMap.mp hkeys
    obtain ⟨rest, _, rfl⟩ := List.mem_map.mp hbelow
    rfl
  · intro branch hbranch
    exact Order.ascends_map_append_left.mpr (induction branch hbranch)
  · have hsiblings := hsorted.siblings id node hnode
    rw [Order.Ascends, List.pairwise_map] at hsiblings
    refine hsiblings.imp ?_
    intro left right hlt leftKeys hleft rightKeys hright
    obtain ⟨leftRest, _, rfl⟩ := List.mem_map.mp hleft
    obtain ⟨rightRest, _, rfl⟩ := List.mem_map.mp hright
    exact Order.sequences_of_lt hlt leftRest rightRest

theorem Sorted.descendants_ascend {id : Nat} (hid : id < trie.nodes.size) :
    order.sequences.Ascends ((trie.descendants id).map trie.pathOf) := by
  have hpaths : (trie.descendants id).map trie.pathOf =
      ((trie.routes id).map Route.keys).map (trie.pathOf id ++ ·) := by
    rw [descendants, List.map_map, List.map_map]
    apply List.map_congr_left
    intro route hroute
    exact hshaped.pathOf_finish hid hroute
  rw [hpaths]
  exact Order.ascends_map_append_left.mpr (hsorted.routes_ascend hshaped hid)

theorem Sorted.longer_ascends {id : Nat} (hid : id < trie.nodes.size) (shortest : Nat) :
    order.sequences.Ascends (trie.longer shortest id) := by
  rw [hshaped.longer_eq hid]
  exact (hsorted.descendants_ascend hshaped hid).sublist (List.filter_sublist.map trie.pathOf)

end Ordered

/-- What collecting adds: the paths of the terminal nodes of a subtree that are longer than a
bound, those of each node once, in the order of sequences. -/
structure Collects (order : Order α) (trie : Trie α) (id : NodeId) (shortest : Nat)
    (added : List (List α)) : Prop where
  collected : trie.collect id shortest = .ok added
  appended : ∀ gathered, trie.collectOnto id shortest gathered = .ok (gathered ++ added)
  shown : ∃ ids : List NodeId, ids.Nodup ∧
    List.Forall₂ (fun finish keys => trie.pathTo finish = .ok keys) ids added ∧
    ∀ finish, finish ∈ ids ↔
      (∃ node, trie.node finish = .ok node ∧ node.terminal = true ∧ shortest < node.depth) ∧
        ∃ keys rest, trie.pathTo id = .ok keys ∧ trie.pathTo finish = .ok (keys ++ rest)
  /-- A path that agrees with the beginning of another is that beginning. -/
  extends_iff : ∀ (finish : Nat) keys path, trie.pathTo id = .ok keys →
    trie.pathTo finish = .ok path →
      ((∃ front rest, path = front ++ rest ∧ order.Agree front keys) ↔ keys <+: path)
  ascends : order.sequences.Ascends added

section Collects

variable [Std.TransCmp order] (hshaped : trie.Shaped) (hsorted : Sorted order trie)
include hshaped hsorted

private theorem Sorted.agree_beginning_iff {id finish : Nat} {keys path : List α}
    (hkeys : trie.pathTo id = .ok keys) (hpath : trie.pathTo finish = .ok path) :
    (∃ front rest, path = front ++ rest ∧ order.Agree front keys) ↔ keys <+: path := by
  have hleads := hshaped.pathTo_eq_ok_iff.mp hkeys
  constructor
  · rintro ⟨front, rest, rfl, hagree⟩
    obtain ⟨middle, hfront, _⟩ := (hshaped.pathTo_eq_ok_iff.mp hpath).split
    obtain ⟨rfl, _⟩ := hsorted.leads_agree_unique hfront hleads hagree
    exact List.prefix_append front rest
  · rintro ⟨rest, rfl⟩
    exact ⟨keys, rest, rfl, Order.Agree.refl keys⟩

/-- The nodes below a node are those whose paths go through it. -/
private theorem Sorted.mem_descendants_iff_extends {id finish : Nat}
    (hid : id < trie.nodes.size) :
    finish ∈ trie.descendants id ↔
      ∃ keys rest, trie.pathTo id = .ok keys ∧ trie.pathTo finish = .ok (keys ++ rest) := by
  rw [hshaped.mem_descendants_iff hid]
  constructor
  · rintro ⟨rest, hbelow⟩
    have hleads := hshaped.leads_pathOf hid
    exact ⟨_, rest, hshaped.pathTo_of_leads hleads,
      hshaped.pathTo_of_leads (hleads.append hbelow)⟩
  · rintro ⟨keys, rest, hkeys, hpath⟩
    obtain ⟨middle, hfront, hbelow⟩ := (hshaped.pathTo_eq_ok_iff.mp hpath).split
    obtain ⟨_, rfl⟩ := hsorted.leads_agree_unique hfront (hshaped.pathTo_eq_ok_iff.mp hkeys)
      (Order.Agree.refl keys)
    exact ⟨rest, hbelow⟩

theorem Sorted.collects {id : Nat} (hid : id < trie.nodes.size) (shortest : Nat) :
    Collects order trie id shortest (trie.longer shortest id) where
  collected := hshaped.collect_eq hid
  appended := by
    intro gathered
    rw [collectOnto_eq, hshaped.collect_eq hid]
    rfl
  shown := by
    have hnode : ∀ finish ∈ trie.descendants id, ∃ node, trie.node finish = .ok node := by
      intro finish hfinish
      obtain ⟨_, hleads⟩ := (hshaped.mem_descendants_iff hid).mp hfinish
      exact hleads.finish_node
    refine ⟨(trie.descendants id).filter fun finish =>
      trie.terminalAt finish && shortest < (trie.pathOf finish).length,
      (hshaped.descendants_nodup hid).filter _, ?_, ?_⟩
    · rw [hshaped.longer_eq hid, List.forall₂_map_right_iff, List.forall₂_same]
      intro finish hfinish
      obtain ⟨node, hfound⟩ := hnode finish (List.mem_of_mem_filter hfinish)
      exact hshaped.pathTo_eq (lt_size_of_node hfound)
    · intro finish
      rw [List.mem_filter, ← hsorted.mem_descendants_iff_extends hshaped hid, and_comm]
      apply and_congr_left
      intro hfinish
      obtain ⟨node, hfound⟩ := hnode finish hfinish
      rw [terminalAt_of_node hfound, hshaped.length_pathOf hfound]
      simp [hfound]
  extends_iff := fun _ _ _ hkeys hpath => hsorted.agree_beginning_iff hshaped hkeys hpath
  ascends := hsorted.longer_ascends hshaped hid shortest

end Collects

/-- Whatever was inserted, collecting from any node adds the stored sequences through it. -/
theorem laid_collects (order : Order α) [Std.TransCmp order] (paths : List (List α)) :
    ∀ id < (laid order paths).nodes.size, ∀ shortest,
      ∃ added, Collects order (laid order paths) id shortest added :=
  fun _ hid shortest =>
    ⟨_, (laid_sorted order paths).collects (laid_shaped order paths) hid shortest⟩

/-- Sequences of which some begin others, inserted out of their order. -/
def nestedPaths : List (List Int) :=
  [[21, 5], [2, 3], [31, 2, 4], [11], [41, 2], [61, 2, 14, 7]]

theorem laid_collects_nestedPaths :
    (laid Order.byLastDigit nestedPaths).pathTo 1 = .ok [21] ∧
      (laid Order.byLastDigit nestedPaths).collectOnto 1 1 [[8]] =
        .ok [[8], [21, 2], [21, 2, 4], [21, 2, 4, 7], [21, 5]] ∧
      ∃ added, Collects Order.byLastDigit (laid Order.byLastDigit nestedPaths) 1 1 added :=
  ⟨by decide +kernel, by decide +kernel,
    laid_collects Order.byLastDigit nestedPaths 1 (by decide +kernel) 1⟩

end Trie

end Containment
