import Containment.Proofs.Trie.Laid
import Containment.Proofs.Trie.SubsetSearch

namespace Containment

variable {α ω : Type} {order : Order α}

namespace Order

/-! What a sequence has left after counterparts of several keys, one after another. -/

def afterAll (order : Order α) (keys elements : List α) : Option (List α) :=
  keys.foldlM (fun remaining key => order.after key remaining) elements

@[simp] theorem afterAll_nil (order : Order α) (elements : List α) :
    order.afterAll [] elements = some elements := rfl

theorem afterAll_cons (order : Order α) (key : α) (keys elements : List α) :
    order.afterAll (key :: keys) elements =
      (order.after key elements).bind (order.afterAll keys) := rfl

/-- The last key has its turn when all others have had theirs. -/
theorem foldlM_concat_eq_some {step : List α → α → Option (List α)} {key : α}
    {keys elements rest : List α} :
    (keys ++ [key]).foldlM step elements = some rest ↔
      ∃ middle, keys.foldlM step elements = some middle ∧ step middle key = some rest := by
  rw [List.foldlM_append, Option.bind_eq_bind, Option.bind_eq_some_iff]
  simp

theorem afterAll_concat_eq_some {key : α} {keys elements rest : List α} :
    order.afterAll (keys ++ [key]) elements = some rest ↔
      ∃ middle, order.afterAll keys elements = some middle ∧
        order.after key middle = some rest :=
  foldlM_concat_eq_some

theorem exists_of_afterAll {keys elements rest : List α}
    (hafter : order.afterAll keys elements = some rest) :
    ∃ front, elements = front ++ rest := by
  induction keys generalizing elements with
  | nil =>
      cases hafter
      exact ⟨[], rfl⟩
  | cons key keys induction =>
      obtain ⟨middle, hkey, hkeys⟩ := Option.bind_eq_some_iff.mp hafter
      obtain ⟨before, element, rfl, _⟩ := exists_of_after hkey
      obtain ⟨front, rfl⟩ := induction hkeys
      exact ⟨before ++ element :: front, by simp⟩

section

variable [Std.TransCmp order]

theorem included_iff_afterAll {keys elements : List α} (hkeys : order.Ascends keys)
    (helements : order.Ascends elements) :
    order.Included keys elements ↔ ∃ rest, order.afterAll keys elements = some rest := by
  induction keys generalizing elements with
  | nil => simp
  | cons key keys induction =>
      rw [included_cons_iff_after hkeys helements]
      simp only [afterAll_cons, Option.bind_eq_some_iff]
      constructor
      · rintro ⟨middle, hafter, hincluded⟩
        obtain ⟨rest, hrest⟩ :=
          (induction hkeys.tail (helements.of_after hafter)).mp hincluded
        exact ⟨rest, middle, hafter, hrest⟩
      · rintro ⟨rest, middle, hafter, hrest⟩
        exact ⟨middle, hafter,
          (induction hkeys.tail (helements.of_after hafter)).mpr ⟨rest, hrest⟩⟩

/-- Nothing is left exactly when the last of the keys stands for the last element. -/
theorem afterAll_rest_eq_nil_iff {key : α} {keys elements rest : List α}
    (helements : order.Ascends elements) (hne : elements ≠ [])
    (hafter : order.afterAll (keys ++ [key]) elements = some rest) :
    rest = [] ↔ order key (elements.getLast hne) = .eq := by
  obtain ⟨middle, hkeys, hkey⟩ := afterAll_concat_eq_some.mp hafter
  obtain ⟨front, rfl⟩ := exists_of_afterAll hkeys
  obtain ⟨before, element, rfl, heq⟩ := exists_of_after hkey
  rw [← List.append_assoc] at helements
  have hascends := helements.of_append_right
  cases rest with
  | nil => simp [heq]
  | cons next later =>
      have hlast : order key ((next :: later).getLast (List.cons_ne_nil next later)) = .lt :=
        Std.TransCmp.lt_of_eq_of_lt heq (hascends.head_lt (List.getLast_mem _))
      simp [hlast]

end

end Order

namespace Trie

variable {trie : Trie α}

/-! The nodes other than the root that are fit by their own key, by what hangs on them
and by the path to them. -/

def fitNodes (trie : Trie α) (fits : α → Node α → List α → Bool) : List NodeId :=
  (List.range trie.nodes.size).filter fun id =>
    match trie.node id, trie.pathTo id with
    | .ok node, .ok keys => node.key?.any fun key => fits key node keys
    | _, _ => false

/-- A search from the root enters, besides the root, the fit nodes and no others, and each
of them once. The visits that it counts are those. -/
structure Enters (trie : Trie α) (place : ω → NodeId)
    (visit : ω → Except Fault (Visit ω (List α))) (first : ω)
    (visited : List (Visited ω (List α))) (fits : α → Node α → List α → Bool) : Prop where
  ends : Traversal visit [first] visited
  pushed_perm : ((pushed visit [first] visited).map place).Perm (root :: trie.fitNodes fits)
  counted : (Findings.ofVisited visited).visited = 1 + (trie.fitNodes fits).length

section Enters

variable {place : ω → NodeId} {visit : ω → Except Fault (Visit ω (List α))} {first : ω}
  {visited : List (Visited ω (List α))} {fits : α → Node α → List α → Bool}

theorem Shaped.mem_fitNodes_iff (hshaped : trie.Shaped) {id : Nat} {key : α}
    {keys : List α} (hleads : trie.Leads root (keys ++ [key]) id) {node : Node α}
    (hnode : trie.node id = .ok node) :
    id ∈ trie.fitNodes fits ↔ fits key node (keys ++ [key]) = true := by
  have hkey : node.key? = some key := by
    rw [hshaped.key?_eq_getLast? hleads hnode, List.getLast?_concat]
  rw [fitNodes, List.mem_filter, List.mem_range, hnode, hshaped.pathTo_of_leads hleads]
  simp [lt_size_of_node hnode, hkey]

theorem Shaped.root_not_mem_fitNodes (hshaped : trie.Shaped) :
    root ∉ trie.fitNodes fits := by
  obtain ⟨node, hroot, _⟩ := hshaped.rooted
  have hkey : node.key? = none := hshaped.key?_eq_getLast? (.here hroot) hroot
  rw [fitNodes, List.mem_filter, hroot, hshaped.pathTo_of_leads (.here hroot)]
  simp [hkey]

private theorem exists_leads_concat (hshaped : trie.Shaped) {id : Nat}
    (hid : id < trie.nodes.size) (hroot : id ≠ root) :
    ∃ keys key node, trie.Leads root (keys ++ [key]) id ∧ trie.node id = .ok node := by
  obtain ⟨keys, hleads⟩ := hshaped.exists_leads hid
  obtain ⟨node, hnode⟩ := exists_node hid
  cases keys using List.reverseRecOn with
  | nil =>
      cases hleads
      contradiction
  | append_singleton keys key => exact ⟨keys, key, node, hleads, hnode⟩

/-- Whether a list has the root and the fit nodes is settled node by node. -/
theorem Shaped.perm_fitNodes (hshaped : trie.Shaped) {ids : List NodeId}
    (hids : ids.Subperm (List.range trie.nodes.size)) (hrooted : root ∈ ids)
    (hfits : ∀ (id : Nat) node keys key, trie.Leads root (keys ++ [key]) id →
      trie.node id = .ok node → (id ∈ ids ↔ fits key node (keys ++ [key]) = true)) :
    ids.Perm (root :: trie.fitNodes fits) := by
  have honce : (root :: trie.fitNodes fits).Nodup :=
    List.nodup_cons.mpr ⟨hshaped.root_not_mem_fitNodes, List.nodup_range.filter _⟩
  apply (List.perm_ext_iff_of_nodup (nodup_of_subperm hids List.nodup_range) honce).mpr
  intro id
  rw [List.mem_cons]
  by_cases hroot : id = root
  · subst hroot
    exact iff_of_true hrooted (Or.inl rfl)
  · rw [or_iff_right hroot]
    have hsame : id < trie.nodes.size → (id ∈ ids ↔ id ∈ trie.fitNodes fits) := by
      intro hid
      obtain ⟨keys, key, node, hleads, hnode⟩ := exists_leads_concat hshaped hid hroot
      rw [hfits id node keys key hleads hnode, hshaped.mem_fitNodes_iff hleads hnode]
    constructor
    · exact fun hmem => (hsame (List.mem_range.mp (hids.subset hmem))).mp hmem
    · exact fun hfit => (hsame (List.mem_range.mp (List.mem_of_mem_filter hfit))).mpr hfit

theorem Shaped.enters (hshaped : trie.Shaped) (hfirst : place first = root)
    (hends : Traversal visit [first] visited)
    (hbound : (visited.map fun entry => place entry.item).Subperm
      (trie.descendants (place first)))
    (hfits : ∀ (id : Nat) node keys key, trie.Leads root (keys ++ [key]) id →
      trie.node id = .ok node → ((∃ item ∈ visited.map Visited.item, place item = id) ↔
        fits key node (keys ++ [key]) = true)) :
    trie.Enters place visit first visited fits := by
  have hplaces : ((visited.map Visited.item).map place).Perm (root :: trie.fitNodes fits) := by
    apply hshaped.perm_fitNodes
    case hids =>
      rw [hfirst] at hbound
      rw [List.map_map]
      exact hbound.trans hshaped.descendants_root_perm.subperm
    case hrooted =>
      rw [← hfirst]
      exact List.mem_map_of_mem (hends.mem_items_iff.mpr (Or.inl List.mem_cons_self))
    case hfits =>
      intro id node keys key hleads hnode
      rw [List.mem_map, hfits id node keys key hleads hnode]
  refine ⟨hends, (hends.pushed_perm.map place).trans hplaces, ?_⟩
  have hlength := hplaces.length_eq
  rw [List.length_map, List.length_map, List.length_cons] at hlength
  rw [Findings.ofVisited, hlength, Nat.add_comm]

/-! Each item of a search carries a part of the query. A step down a branch may use some of
it up under the key of the branch, or it is not taken. -/

/-- The steps taken from the items are those that leave some part of the query, to nodes at
which the search goes on. It has gone on wherever there is a step to take. -/
structure StepsDown (trie : Trie α) (place : ω → NodeId) (part : ω → List α)
    (visit : ω → Except Fault (Visit ω (List α))) (step : List α → α → Option (List α))
    (goes : NodeId → List α → Prop) (items : List ω) : Prop where
  next_iff : ∀ item ∈ items, ∀ (id : Nat) rest,
    (∃ next ∈ nextOf visit item, place next = id ∧ part next = rest) ↔
      ∃ node, trie.node (place item) = .ok node ∧ ∃ branch ∈ node.branches,
        branch.child = id ∧ step (part item) branch.key = some rest ∧ goes id rest
  goes_above : ∀ (id : Nat) node branch before rest, trie.node id = .ok node →
    branch ∈ node.branches → step before branch.key = some rest → goes id before

section Steps

variable {part : ω → List α} {step : List α → α → Option (List α)}
  {goes : NodeId → List α → Prop} (hshaped : trie.Shaped)
  (hends : Traversal visit [first] visited)
  (hsteps : trie.StepsDown place part visit step goes (visited.map Visited.item))
  (hfirst : place first = root)
include hshaped hends hsteps hfirst

/-- The root is visited with the whole query. -/
private theorem exists_item_root_iff {rest : List α} :
    (∃ item ∈ visited.map Visited.item, place item = root ∧ part item = rest) ↔
      part first = rest := by
  constructor
  · intro hvisited
    obtain ⟨item, hitem, hplace, hpart⟩ := hvisited
    rcases hends.mem_items_iff.mp hitem with hpending | ⟨earlier, hearlier, hnext⟩
    · rw [← List.mem_singleton.mp hpending]
      exact hpart
    · obtain ⟨node, hnode, branch, hbranch, hchild, _⟩ :=
        (hsteps.next_iff earlier hearlier root rest).mp ⟨item, hnext, hplace, hpart⟩
      exact absurd hchild (hshaped.child_ne_root hnode hbranch)
  · exact fun hpart =>
      ⟨first, hends.mem_items_iff.mpr (Or.inl List.mem_cons_self), hfirst, hpart⟩

/-- A child is visited from its parent and with what the step leaves of the parent's part. -/
private theorem exists_item_child_iff {id : Nat} {node : Node α} {branch : Branch α}
    {rest : List α} (hnode : trie.node id = .ok node) (hbranch : branch ∈ node.branches) :
    (∃ item ∈ visited.map Visited.item, place item = branch.child ∧ part item = rest) ↔
      ∃ before, (∃ item ∈ visited.map Visited.item, place item = id ∧ part item = before) ∧
        step before branch.key = some rest ∧ goes branch.child rest := by
  constructor
  · intro hvisited
    obtain ⟨item, hitem, hplace, hpart⟩ := hvisited
    rcases hends.mem_items_iff.mp hitem with hpending | ⟨earlier, hearlier, hnext⟩
    · rw [List.mem_singleton.mp hpending, hfirst] at hplace
      exact absurd hplace.symm (hshaped.child_ne_root hnode hbranch)
    · obtain ⟨owner, howner, other, hother, hsame, hstep⟩ :=
        (hsteps.next_iff earlier hearlier _ rest).mp ⟨item, hnext, hplace, hpart⟩
      obtain ⟨rfl, rfl⟩ := hshaped.owner_unique hnode howner hbranch hother hsame.symm
      exact ⟨part earlier, ⟨earlier, hearlier, rfl, rfl⟩, hstep⟩
  · intro hexists
    obtain ⟨before, ⟨earlier, hearlier, rfl, rfl⟩, hstep⟩ := hexists
    obtain ⟨next, hnext, hreached⟩ := (hsteps.next_iff earlier hearlier _ rest).mpr
      ⟨node, hnode, branch, hbranch, rfl, hstep⟩
    exact ⟨next, hends.mem_items_iff.mpr (Or.inr ⟨earlier, hearlier, hnext⟩), hreached⟩

/-- A node is visited with the part that the keys of its path leave, one after another. -/
theorem Shaped.exists_item_iff {id : Nat} {keys : List α}
    (hleads : trie.Leads root keys id) (rest : List α) :
    (∃ item ∈ visited.map Visited.item, place item = id ∧ part item = rest) ↔
      keys.foldlM step (part first) = some rest ∧ (keys = [] ∨ goes id rest) := by
  -- A path from the root is made longer at its end, as the search goes down.
  induction keys using List.reverseRecOn generalizing id rest with
  | nil =>
      cases hleads
      rw [exists_item_root_iff hshaped hends hsteps hfirst]
      simp
  | append_singleton keys key induction =>
      obtain ⟨middle, hfront, hlast⟩ := hleads.split
      cases hlast with
      | down hnode hbranch hend =>
          cases hend
          rw [exists_item_child_iff hshaped hends hsteps hfirst hnode hbranch,
            Order.foldlM_concat_eq_some]
          constructor
          · intro hexists
            obtain ⟨before, hparent, hstep, hgoes⟩ := hexists
            exact ⟨⟨before, ((induction hfront before).mp hparent).1, hstep⟩, Or.inr hgoes⟩
          · intro hboth
            obtain ⟨⟨before, hfound, hstep⟩, hgoes⟩ := hboth
            have habove : goes middle before :=
              hsteps.goes_above middle _ _ before rest hnode hbranch hstep
            exact ⟨before, (induction hfront before).mpr ⟨hfound, Or.inr habove⟩, hstep,
              hgoes.resolve_left (by simp)⟩

end Steps

end Enters

/-! The search for subsets enters a node when the query holds the whole path to it and
goes on behind it, as the trie does. -/

def fitsSubsets (order : Order α) (query : Canonical α) (key : α) (node : Node α)
    (keys : List α) : Bool :=
  !node.isLeaf && decide (order.Included keys query.elements) &&
    !order.equivalent key query.last

section Subsets

variable [Std.TransCmp order] (hshaped : trie.Shaped) (hsorted : Sorted order trie)
  {size : Nat} {query : List α} (hquery : order.Ascends query)
  {visited : List (Visited (SubsetItem α) (List α))}
  (hends : Traversal (trie.subsetVisit order size) [{ node := root, remaining := query }] visited)
include hshaped hsorted hquery hends

private theorem Sorted.subsets_stepsDown :
    trie.StepsDown SubsetItem.node SubsetItem.remaining (trie.subsetVisit order size)
      (fun remaining key => order.after key remaining)
      (fun id rest => rest ≠ [] ∧ trie.leafAt id = false) (visited.map Visited.item) where
  next_iff := by
    intro item hitem id rest
    obtain ⟨entry, hentry, rfl⟩ := List.mem_map.mp hitem
    obtain ⟨⟨hid, hascends⟩, found, hvisit, _⟩ := hends.visit_of_mem
      (fun item => item.node < trie.nodes.size ∧ order.Ascends item.remaining)
      (hsorted.subsetNext_ascends hshaped)
      (List.forall_mem_singleton.mpr ⟨hshaped.size_pos, hquery⟩) hentry
    obtain ⟨node, hnode⟩ := exists_node hid
    rw [nextOf_eq hvisit]
    constructor
    · intro hexists
      obtain ⟨next, hnext, rfl, rfl⟩ := hexists
      obtain ⟨branch, hbranch, hchild, hstep⟩ :=
        (hsorted.mem_subsetNext_iff hshaped hascends hnode hvisit).mp hnext
      exact ⟨node, hnode, branch, hbranch, hchild.symm, hstep⟩
    · intro hexists
      obtain ⟨other, hother, branch, hbranch, rfl, hstep⟩ := hexists
      obtain rfl := node_unique hnode hother
      exact ⟨{ node := branch.child, remaining := rest },
        (hsorted.mem_subsetNext_iff hshaped hascends hnode hvisit).mpr
          ⟨branch, hbranch, rfl, hstep⟩, rfl, rfl⟩
  goes_above := by
    intro id node branch before rest hnode hbranch hafter
    constructor
    · rintro rfl
      contradiction
    · rw [leafAt_of_node hnode, Node.isLeaf, List.isEmpty_eq_false_iff]
      exact List.ne_nil_of_mem hbranch

end Subsets

/-- Nothing of the query is left behind a path that the query holds exactly when the last
key of the path stands for the last element of the query. -/
theorem Sorted.fitsSubsets_iff [Std.TransCmp order] (hshaped : trie.Shaped)
    (hsorted : Sorted order trie) {query : Canonical α}
    (hquery : order.Ascends query.elements) {id : Nat} {node : Node α} {keys : List α} {key : α}
    (hleads : trie.Leads root (keys ++ [key]) id) (hnode : trie.node id = .ok node) :
    fitsSubsets order query key node (keys ++ [key]) = true ↔
      ∃ rest, order.afterAll (keys ++ [key]) query.elements = some rest ∧
        rest ≠ [] ∧ trie.leafAt id = false := by
  have hascends := hsorted.path_ascends hshaped hleads
  have hrest : ∀ {rest : List α},
      order.afterAll (keys ++ [key]) query.elements = some rest →
        (rest ≠ [] ↔ order key query.last ≠ .eq) := fun hafter =>
    not_congr (Order.afterAll_rest_eq_nil_iff hquery query.nonempty hafter)
  rw [fitsSubsets, leafAt_of_node hnode]
  simp only [Bool.and_eq_true, Bool.not_eq_true', decide_eq_true_eq, ← Bool.not_eq_true,
    Order.equivalent_eq_true, Order.included_iff_afterAll hascends hquery]
  constructor
  · intro hfits
    obtain ⟨⟨hleaf, rest, hafter⟩, hlast⟩ := hfits
    exact ⟨rest, hafter, (hrest hafter).mpr hlast, hleaf⟩
  · intro hexists
    obtain ⟨rest, hafter, hne, hleaf⟩ := hexists
    exact ⟨⟨hleaf, rest, hafter⟩, (hrest hafter).mp hne⟩

theorem Sorted.subsets_enters [Std.TransCmp order] (hshaped : trie.Shaped)
    (hsorted : Sorted order trie) (query : Canonical α) (hquery : order.Ascends query.elements) :
    ∃ visited, trie.properSubsets order query = .ok (Findings.ofVisited visited) ∧
      trie.Enters SubsetItem.node (trie.subsetVisit order query.elements.length)
        { node := root, remaining := query.elements } visited (fitsSubsets order query) := by
  obtain ⟨visited, hwalk, hends, hbound⟩ :=
    (hshaped.descends_subsetVisit order query.elements.length).exists_walk hshaped
      { node := root, remaining := query.elements } hshaped.size_pos
  refine ⟨visited, properSubsets_of_walk hwalk, hshaped.enters rfl hends hbound ?_⟩
  intro id node keys key hleads hnode
  have hitems := hshaped.exists_item_iff hends
    (hsorted.subsets_stepsDown hshaped hquery hends) rfl hleads
  rw [hsorted.fitsSubsets_iff hshaped hquery hleads hnode]
  constructor
  · intro hvisited
    obtain ⟨item, hitem, hplace⟩ := hvisited
    obtain ⟨hafter, hgoes⟩ := (hitems item.remaining).mp ⟨item, hitem, hplace, rfl⟩
    exact ⟨item.remaining, hafter, hgoes.resolve_left (by simp)⟩
  · intro hexists
    obtain ⟨rest, hafter, hgoes⟩ := hexists
    obtain ⟨item, hitem, hplace, _⟩ := (hitems rest).mpr ⟨hafter, Or.inr hgoes⟩
    exact ⟨item, hitem, hplace⟩

/-- Whatever was inserted, the nodes tell how many visits a search for subsets makes. -/
theorem laid_subsets_enters (order : Order α) [Std.TransCmp order] (paths : List (List α))
    (query : Canonical α) (hquery : order.Ascends query.elements) :
    ∃ visited, (laid order paths).properSubsets order query = .ok (Findings.ofVisited visited) ∧
      (laid order paths).Enters SubsetItem.node
        ((laid order paths).subsetVisit order query.elements.length)
        { node := root, remaining := query.elements } visited (fitsSubsets order query) :=
  (laid_sorted order paths).subsets_enters (laid_shaped order paths) query hquery

/-- It holds the whole first of the crossed paths, under other elements. -/
def crossedQuery : Canonical Int :=
  ⟨[31, 43, 4], List.cons_ne_nil 31 [43, 4]⟩

theorem laid_subsets_enters_crossedPaths :
    Order.byLastDigit.Ascends crossedQuery.elements ∧
      ((laid Order.byLastDigit crossedPaths).properSubsets Order.byLastDigit crossedQuery).map
        Findings.visited = .ok 3 ∧
      (laid Order.byLastDigit crossedPaths).fitNodes
        (fitsSubsets Order.byLastDigit crossedQuery) = [1, 2] ∧
      ∃ visited, (laid Order.byLastDigit crossedPaths).properSubsets Order.byLastDigit
          crossedQuery = .ok (Findings.ofVisited visited) ∧
        (laid Order.byLastDigit crossedPaths).Enters SubsetItem.node
          ((laid Order.byLastDigit crossedPaths).subsetVisit Order.byLastDigit
            crossedQuery.elements.length)
          { node := root, remaining := crossedQuery.elements } visited
          (fitsSubsets Order.byLastDigit crossedQuery) :=
  ⟨by decide, by decide +kernel, by decide +kernel,
    laid_subsets_enters Order.byLastDigit crossedPaths crossedQuery (by decide)⟩

end Trie

end Containment
