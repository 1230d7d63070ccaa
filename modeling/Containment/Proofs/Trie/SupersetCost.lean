import Containment.Proofs.Trie.Cost
import Containment.Proofs.Trie.SupersetSearch

namespace Containment

variable {α : Type} {order : Order α}

namespace Order

theorem Included.append_right {small large : List α} (hincluded : order.Included small large)
    (more : List α) : order.Included small (large ++ more) := by
  intro element helement
  obtain ⟨other, hother, heq⟩ := hincluded element helement
  exact ⟨other, List.mem_append_left more hother, heq⟩

/-- Some element below a key is missing from a path that ends with the key. -/
theorem not_included_filter_iff {key : α} {keys elements : List α} :
    ¬ order.Included (elements.filter fun element => order element key == .lt) (keys ++ [key]) ↔
      ∃ element ∈ elements, order element key = .lt ∧
        ∀ other ∈ keys, order element other ≠ .eq := by
  simp only [Included, List.mem_filter, beq_iff_eq, not_forall, not_exists, not_and]
  constructor
  · rintro ⟨element, ⟨helement, hlt⟩, hnone⟩
    exact ⟨element, helement, hlt, fun other hother => hnone other (List.mem_append_left _ hother)⟩
  · rintro ⟨element, helement, hlt, hnone⟩
    refine ⟨element, ⟨helement, hlt⟩, ?_⟩
    intro other hother
    rcases List.mem_append.mp hother with hearlier | hlast
    · exact hnone other hearlier
    · rw [List.mem_singleton.mp hlast, hlt]
      decide

/-! What of a required sequence is still to come below a key. A key above the next required
element jumps over it, and behind the last of them nothing is looked for any more. -/

def below (order : Order α) (key : α) : List α → Option (List α)
  | [] => none
  | next :: later =>
      match order key next with
      | .lt => some (next :: later)
      | .eq => some later
      | .gt => none

@[simp] theorem below_nil (order : Order α) (key : α) : order.below key [] = none := rfl

theorem below_cons_eq_some {key next : α} {later rest : List α} :
    order.below key (next :: later) = some rest ↔
      order key next = .lt ∧ rest = next :: later ∨ order key next = .eq ∧ rest = later := by
  cases hstanding : order key next <;> simp [below, hstanding, eq_comm]

def belowAll (order : Order α) (keys elements : List α) : Option (List α) :=
  keys.foldlM (fun required key => order.below key required) elements

theorem belowAll_concat_eq_some {key : α} {keys elements rest : List α} :
    order.belowAll (keys ++ [key]) elements = some rest ↔
      ∃ middle, order.belowAll keys elements = some middle ∧
        order.below key middle = some rest :=
  foldlM_concat_eq_some

section

variable {key : α} {keys elements rest : List α}

variable [Std.TransCmp order]

/-- A key can be passed as long as something is required and nothing of it is missed. -/
theorem exists_below_iff (helements : order.Ascends elements) :
    (∃ rest, order.below key elements = some rest) ↔
      elements ≠ [] ∧ ∀ element ∈ elements, order element key ≠ .lt := by
  cases elements with
  | nil => simp
  | cons next later =>
      have hleast : (∀ element ∈ next :: later, order element key ≠ .lt) ↔
          order key next ≠ .gt := by
        constructor
        · exact fun hnone hgt => hnone next List.mem_cons_self (Std.OrientedCmp.lt_of_gt hgt)
        · intro hnot element helement hlt
          apply hnot
          rcases List.mem_cons.mp helement with rfl | hlater
          · exact Std.OrientedCmp.gt_of_lt hlt
          · exact Std.OrientedCmp.gt_of_lt
              (Std.TransCmp.lt_trans (helements.head_lt hlater) hlt)
      rw [hleast]
      cases hstanding : order key next <;> simp [below, hstanding]

/-- What is still required stands above the whole path; the path has all the rest of it. -/
theorem exists_of_belowAll (helements : order.Ascends elements)
    (hbelow : order.belowAll keys elements = some rest) :
    ∃ front, elements = front ++ rest ∧ order.Included front keys ∧
      ∀ key ∈ keys, ∀ element ∈ rest, order key element = .lt := by
  induction keys using List.reverseRecOn generalizing rest with
  | nil =>
      cases hbelow
      exact ⟨[], rfl, nil_included order [], fun _ hkey => absurd hkey List.not_mem_nil⟩
  | append_singleton keys key induction =>
      obtain ⟨middle, hkeys, hkey⟩ := belowAll_concat_eq_some.mp hbelow
      obtain ⟨front, rfl, hfront, habove⟩ := induction hkeys
      have hmiddle := helements.of_append_right
      have hwider : order.Included front (keys ++ [key]) := hfront.append_right [key]
      cases middle with
      | nil => contradiction
      | cons next later =>
          rcases below_cons_eq_some.mp hkey with ⟨hlt, rfl⟩ | ⟨heq, rfl⟩
          · refine ⟨front, rfl, hwider, ?_⟩
            intro other hother element helement
            rcases List.mem_append.mp hother with hearlier | hlast
            · exact habove other hearlier element helement
            · rw [List.mem_singleton.mp hlast]
              exact (hmiddle.cons_of_lt hlt).head_lt helement
          · refine ⟨front ++ [next], by simp, ?_, ?_⟩
            · intro element helement
              rcases List.mem_append.mp helement with hearlier | hlast
              · exact hwider element hearlier
              · rw [List.mem_singleton.mp hlast]
                exact ⟨key, by simp, Std.OrientedCmp.eq_symm heq⟩
            · intro other hother element helement
              rcases List.mem_append.mp hother with hearlier | hlast
              · exact habove other hearlier element (List.mem_cons_of_mem next helement)
              · rw [List.mem_singleton.mp hlast]
                exact Std.TransCmp.lt_of_eq_of_lt heq (hmiddle.head_lt helement)

section

variable {middle : List α} (helements : order.Ascends elements)
  (hbelow : order.belowAll keys elements = some middle)
include helements hbelow

theorem not_included_iff_of_belowAll :
    ¬ order.Included elements keys ↔ middle ≠ [] := by
  obtain ⟨front, rfl, hfront, habove⟩ := exists_of_belowAll helements hbelow
  constructor
  · rintro hnot rfl
    rw [List.append_nil] at hnot
    exact hnot hfront
  · intro hne hincluded
    obtain ⟨element, helement⟩ := List.exists_mem_of_ne_nil middle hne
    obtain ⟨key, hkey, heq⟩ := hincluded element (List.mem_append_right front helement)
    rw [Std.OrientedCmp.gt_of_lt (habove key hkey element helement)] at heq
    contradiction

/-- The elements that a further key could jump over are those still required. -/
private theorem included_filter_iff_of_belowAll :
    order.Included (elements.filter fun element => order element key == .lt) (keys ++ [key]) ↔
      ∀ element ∈ middle, order element key ≠ .lt := by
  obtain ⟨front, rfl, hfront, habove⟩ := exists_of_belowAll helements hbelow
  simp only [Included, List.mem_filter, beq_iff_eq]
  constructor
  · intro hfound element helement hlt
    obtain ⟨other, hother, heq⟩ := hfound element ⟨List.mem_append_right front helement, hlt⟩
    rcases List.mem_append.mp hother with hearlier | hlast
    · rw [Std.OrientedCmp.gt_of_lt (habove other hearlier element helement)] at heq
      contradiction
    · rw [List.mem_singleton.mp hlast, hlt] at heq
      contradiction
  · intro hnone element helement
    obtain ⟨hmem, hlt⟩ := helement
    rcases List.mem_append.mp hmem with hpassed | hrequired
    · obtain ⟨other, hother, heq⟩ := hfront element hpassed
      exact ⟨other, List.mem_append_left _ hother, heq⟩
    · exact absurd hlt (hnone element hrequired)

end

private theorem exists_belowAll_concat_iff_of {middle : List α}
    (helements : order.Ascends elements) (hbelow : order.belowAll keys elements = some middle) :
    (∃ rest, order.belowAll (keys ++ [key]) elements = some rest) ↔
      ¬ order.Included elements keys ∧
        order.Included (elements.filter fun element => order element key == .lt)
          (keys ++ [key]) := by
  have hmiddle : order.Ascends middle := by
    obtain ⟨front, rfl, _⟩ := exists_of_belowAll helements hbelow
    exact helements.of_append_right
  rw [not_included_iff_of_belowAll helements hbelow,
    included_filter_iff_of_belowAll helements hbelow, ← exists_below_iff hmiddle]
  simp [belowAll_concat_eq_some, hbelow]

/-- What holds of a path holds of its beginning, so the beginning is passed before it. -/
private theorem exists_belowAll (hkeys : order.Ascends (keys ++ [key]))
    (helements : order.Ascends elements) (hlacks : ¬ order.Included elements keys)
    (hjumps : order.Included (elements.filter fun element => order element key == .lt)
      (keys ++ [key])) :
    ∃ middle, order.belowAll keys elements = some middle := by
  induction keys using List.reverseRecOn generalizing key with
  | nil => exact ⟨elements, rfl⟩
  | append_singleton keys last induction =>
      obtain ⟨hfront, _, hacross⟩ := List.pairwise_append.mp hkeys
      have hlast : order last key = .lt := hacross last (by simp) key List.mem_cons_self
      have hlacksFront : ¬ order.Included elements keys :=
        fun hincluded => hlacks (hincluded.append_right [last])
      have hjumpsFront : order.Included
          (elements.filter fun element => order element last == .lt) (keys ++ [last]) := by
        simp only [Included, List.mem_filter, beq_iff_eq] at hjumps ⊢
        intro element helement
        obtain ⟨hmem, hlt⟩ := helement
        have hbefore : order element key = .lt := Std.TransCmp.lt_trans hlt hlast
        obtain ⟨other, hother, heq⟩ := hjumps element ⟨hmem, hbefore⟩
        rcases List.mem_append.mp hother with hearlier | hend
        · exact ⟨other, hearlier, heq⟩
        · rw [List.mem_singleton.mp hend, hbefore] at heq
          contradiction
      obtain ⟨middle, hmiddle⟩ := induction hfront hlacksFront hjumpsFront
      exact (exists_belowAll_concat_iff_of helements hmiddle).mpr ⟨hlacksFront, hjumpsFront⟩

/-- A path can be passed to its end as long as something is required behind all but its last
key, and the last key jumps over nothing. -/
theorem exists_belowAll_concat_iff (hkeys : order.Ascends (keys ++ [key]))
    (helements : order.Ascends elements) :
    (∃ rest, order.belowAll (keys ++ [key]) elements = some rest) ↔
      ¬ order.Included elements keys ∧
        order.Included (elements.filter fun element => order element key == .lt)
          (keys ++ [key]) := by
  constructor
  · intro hpassed
    obtain ⟨rest, hrest⟩ := hpassed
    obtain ⟨middle, hmiddle, _⟩ := belowAll_concat_eq_some.mp hrest
    exact (exists_belowAll_concat_iff_of helements hmiddle).mp ⟨rest, hrest⟩
  · intro hboth
    obtain ⟨middle, hmiddle⟩ := exists_belowAll hkeys helements hboth.1 hboth.2
    exact (exists_belowAll_concat_iff_of helements hmiddle).mpr hboth

end

end Order

namespace Trie

variable {trie : Trie α}

/-! The search for supersets enters a node when the path to its parent lacks something of the
query, and nothing that it lacks is below the key of the node. -/

def fitsSupersets (order : Order α) (query : Canonical α) (key : α) (_node : Node α)
    (keys : List α) : Bool :=
  !decide (order.Included query.elements keys.dropLast) &&
    decide (order.Included (query.elements.filter fun element => order element key == .lt) keys)

/-- A branch is followed with what is still to come below its key. -/
private theorem followed_iff {first : α} {later : List α} {branch : Branch α}
    {next : SupersetItem α} :
    (order branch.key first != .gt) = true ∧ supersetNext order first later branch = next ↔
      branch.child = next.node ∧
        order.below branch.key (first :: later) = some next.required := by
  obtain ⟨id, required⟩ := next
  cases hstanding : order branch.key first <;>
    simp [supersetNext, Order.below, Order.equivalent, hstanding]

theorem Sorted.mem_supersetNext_iff [Std.TransCmp order] (hshaped : trie.Shaped)
    (hsorted : Sorted order trie) {size : Nat} {item next : SupersetItem α} {node : Node α}
    (hnode : trie.node item.node = .ok node) :
    next ∈ nextOf (trie.supersetVisit order size) item ↔ ∃ branch ∈ node.branches,
      branch.child = next.node ∧ order.below branch.key item.required = some next.required := by
  obtain ⟨id, required⟩ := item
  cases required with
  | nil =>
      rw [nextOf_eq (hshaped.supersetVisit_nil order (lt_size_of_node hnode)), coveredVisit]
      simp
  | cons first later =>
      rw [nextOf_eq (supersetVisit_cons order hnode),
        promising_eq_filter (hsorted.siblings id node hnode)]
      simp only [List.mem_map, List.mem_filter, and_assoc, followed_iff]

/-- A node whose path has the whole query is visited for the sake of its subtree, which is
collected there and not entered. Elsewhere a branch is abandoned when its key jumps over an
element of the query that the path lacks. -/
structure Prunes (order : Order α) (trie : Trie α) (query : Canonical α)
    (visited : List (Visited (SupersetItem α) (List α))) : Prop where
  collects : ∀ entry ∈ visited, ∀ keys, trie.pathTo entry.item.node = .ok keys →
    if order.Included query.elements keys then
      trie.collect entry.item.node query.size = .ok entry.yields
    else entry.yields = []
  covered : ∀ (id finish : Nat) keys more, trie.pathTo id = .ok keys →
    order.Included query.elements keys → trie.pathTo finish = .ok (keys ++ more) →
      more ≠ [] → ∀ entry ∈ visited, entry.item.node ≠ finish
  abandons_iff : ∀ entry ∈ visited, ∀ node keys, trie.node entry.item.node = .ok node →
    trie.pathTo entry.item.node = .ok keys → ¬ order.Included query.elements keys →
      ∀ branch ∈ node.branches, (∀ other ∈ visited, other.item.node ≠ branch.child) ↔
        ∃ element ∈ query.elements, order element branch.key = .lt ∧
          ∀ key ∈ keys, order element key ≠ .eq

section Supersets

variable [Std.TransCmp order] (hshaped : trie.Shaped) (hsorted : Sorted order trie)
include hshaped hsorted

private theorem Sorted.supersets_stepsDown {size : Nat} {items : List (SupersetItem α)}
    (hinside : ∀ item ∈ items, item.node < trie.nodes.size) :
    trie.StepsDown SupersetItem.node SupersetItem.required (trie.supersetVisit order size)
      (fun required key => order.below key required) (fun _ _ => True) items where
  next_iff := by
    intro item hitem id rest
    obtain ⟨node, hnode⟩ := exists_node (hinside item hitem)
    simp only [hsorted.mem_supersetNext_iff hshaped hnode, and_true]
    constructor
    · intro hexists
      obtain ⟨next, ⟨branch, hbranch, hchild, hstep⟩, rfl, rfl⟩ := hexists
      exact ⟨node, hnode, branch, hbranch, hchild, hstep⟩
    · intro hexists
      obtain ⟨other, hother, branch, hbranch, rfl, hstep⟩ := hexists
      obtain rfl := node_unique hnode hother
      exact ⟨{ node := branch.child, required := rest }, ⟨branch, hbranch, rfl, hstep⟩, rfl, rfl⟩
  goes_above := fun _ _ _ _ _ _ _ _ => trivial

theorem Sorted.fitsSupersets_iff {query : Canonical α} (hquery : order.Ascends query.elements)
    {id : Nat} {node : Node α} {keys : List α} {key : α}
    (hleads : trie.Leads root (keys ++ [key]) id) :
    fitsSupersets order query key node (keys ++ [key]) = true ↔
      ∃ rest, order.belowAll (keys ++ [key]) query.elements = some rest := by
  rw [Order.exists_belowAll_concat_iff (hsorted.path_ascends hshaped hleads) hquery,
    fitsSupersets, List.dropLast_concat]
  simp

section Visited

variable {query : Canonical α}
  {visited : List (Visited (SupersetItem α) (List α))}
  (hends : Traversal (trie.supersetVisit order query.size)
    [{ node := root, required := query.elements }] visited)
  (hinside : ∀ item ∈ visited.map Visited.item, item.node < trie.nodes.size)
include hends hinside

/-- An entry at a node carries what the path to the node leaves of the query. -/
private theorem Sorted.belowAll_of_visited {entry : Visited (SupersetItem α) (List α)}
    (hentry : entry ∈ visited) {keys : List α}
    (hleads : trie.Leads root keys entry.item.node) :
    order.belowAll keys query.elements = some entry.item.required :=
  ((hshaped.exists_item_iff hends (hsorted.supersets_stepsDown hshaped hinside) rfl hleads
    entry.item.required).mp ⟨entry.item, List.mem_map_of_mem hentry, rfl, rfl⟩).1

private theorem Sorted.exists_visited_iff {id : Nat} {keys : List α}
    (hleads : trie.Leads root keys id) :
    (∃ entry ∈ visited, entry.item.node = id) ↔
      ∃ rest, order.belowAll keys query.elements = some rest := by
  constructor
  · intro hvisited
    obtain ⟨entry, hentry, rfl⟩ := hvisited
    exact ⟨_, hsorted.belowAll_of_visited hshaped hends hinside hentry hleads⟩
  · intro hexists
    obtain ⟨rest, hbelow⟩ := hexists
    obtain ⟨item, hitem, hplace, _⟩ := (hshaped.exists_item_iff hends
      (hsorted.supersets_stepsDown hshaped hinside) rfl hleads rest).mpr
        ⟨hbelow, Or.inr trivial⟩
    obtain ⟨entry, hentry, rfl⟩ := List.mem_map.mp hitem
    exact ⟨entry, hentry, hplace⟩

private theorem Sorted.prunes (hquery : order.Ascends query.elements) :
    trie.Prunes order query visited where
  collects := by
    intro entry hentry keys hpath
    have hbelow := hsorted.belowAll_of_visited hshaped hends hinside hentry
      (hshaped.pathTo_eq_ok_iff.mp hpath)
    have hlacks := Order.not_included_iff_of_belowAll hquery hbelow
    have hid := hinside entry.item (List.mem_map_of_mem hentry)
    obtain ⟨_, found, hvisit, hyields⟩ := hends.visit_of_mem (fun _ => True)
      (fun _ _ _ _ _ _ => trivial) (fun _ _ => trivial) hentry
    obtain ⟨⟨id, required⟩, yields⟩ := entry
    cases required with
    | nil =>
        rw [hshaped.supersetVisit_nil order hid] at hvisit
        cases hvisit
        rw [if_pos (by simpa using hlacks), ← hyields]
        exact hshaped.collect_eq hid
    | cons next later =>
        obtain ⟨node, hnode⟩ := exists_node hid
        rw [supersetVisit_cons order hnode] at hvisit
        cases hvisit
        rw [if_neg (hlacks.mpr (List.cons_ne_nil next later)), ← hyields]
  covered := by
    intro id finish keys more _ hcovers hfinish hmore entry hentry heq
    have hleads := hshaped.pathTo_eq_ok_iff.mp hfinish
    cases more using List.reverseRecOn with
    | nil => contradiction
    | append_singleton front key =>
        rw [← List.append_assoc] at hleads
        have hpassed := (hsorted.exists_visited_iff hshaped hends hinside hleads).mp
          ⟨entry, hentry, heq⟩
        have hlacks := ((Order.exists_belowAll_concat_iff
          (hsorted.path_ascends hshaped hleads) hquery).mp hpassed).1
        exact hlacks (hcovers.append_right front)
  abandons_iff := by
    intro entry hentry node keys hnode hpath hlacks branch hbranch
    have hleads := (hshaped.pathTo_eq_ok_iff.mp hpath).snoc hshaped hnode hbranch
    have hvisited := hsorted.exists_visited_iff hshaped hends hinside hleads
    rw [Order.exists_belowAll_concat_iff (hsorted.path_ascends hshaped hleads) hquery,
      and_iff_right hlacks] at hvisited
    rw [← Order.not_included_filter_iff, ← hvisited]
    simp

end Visited

theorem Sorted.supersets_enters (query : Canonical α) (hquery : order.Ascends query.elements) :
    ∃ visited, trie.properSupersets order query = .ok (Findings.ofVisited visited) ∧
      trie.Enters SupersetItem.node (trie.supersetVisit order query.size)
        { node := root, required := query.elements } visited (fitsSupersets order query) ∧
      trie.Prunes order query visited := by
  obtain ⟨visited, hwalk, hends, hbound⟩ :=
    (hshaped.descends_supersetVisit order query.size).exists_walk hshaped
      { node := root, required := query.elements } hshaped.size_pos
  have hinside : ∀ item ∈ visited.map Visited.item, item.node < trie.nodes.size := by
    intro item hitem
    obtain ⟨entry, hentry, rfl⟩ := List.mem_map.mp hitem
    have hbelow := hbound.trans hshaped.descendants_root_perm.subperm
    exact List.mem_range.mp (hbelow.subset (List.mem_map_of_mem hentry))
  refine ⟨visited, properSupersets_of_walk hwalk, hshaped.enters rfl hends hbound ?_,
    hsorted.prunes hshaped hends hinside hquery⟩
  intro id node keys key hleads _
  rw [hsorted.fitsSupersets_iff hshaped hquery hleads,
    ← hsorted.exists_visited_iff hshaped hends hinside hleads]
  simp only [List.mem_map, exists_exists_and_eq_and]

end Supersets

/-- Whatever was inserted, the nodes tell how many visits a search for supersets makes, and
the query tells where it leaves the trie. -/
theorem laid_supersets_enters (order : Order α) [Std.TransCmp order] (paths : List (List α))
    (query : Canonical α) (hquery : order.Ascends query.elements) :
    ∃ visited, (laid order paths).properSupersets order query =
        .ok (Findings.ofVisited visited) ∧
      (laid order paths).Enters SupersetItem.node
        ((laid order paths).supersetVisit order query.size)
        { node := root, required := query.elements } visited (fitsSupersets order query) ∧
      (laid order paths).Prunes order query visited :=
  (laid_sorted order paths).supersets_enters (laid_shaped order paths) query hquery

/-- Behind its first element one branch of the crossed paths covers it, one is below its
second element and one jumps over that. -/
def scantQuery : Canonical Int :=
  ⟨[31, 43], List.cons_ne_nil 31 [43]⟩

theorem laid_supersets_enters_crossedPaths :
    Order.byLastDigit.Ascends scantQuery.elements ∧
      (laid Order.byLastDigit crossedPaths).properSupersets Order.byLastDigit scantQuery =
        .ok { sets := [[21, 3, 14]], visited := 4 } ∧
      (laid Order.byLastDigit crossedPaths).fitNodes
        (fitsSupersets Order.byLastDigit scantQuery) = [1, 2, 4] ∧
      ∃ visited, (laid Order.byLastDigit crossedPaths).properSupersets Order.byLastDigit
          scantQuery = .ok (Findings.ofVisited visited) ∧
        (laid Order.byLastDigit crossedPaths).Enters SupersetItem.node
          ((laid Order.byLastDigit crossedPaths).supersetVisit Order.byLastDigit scantQuery.size)
          { node := root, required := scantQuery.elements } visited
          (fitsSupersets Order.byLastDigit scantQuery) ∧
        (laid Order.byLastDigit crossedPaths).Prunes Order.byLastDigit scantQuery visited :=
  ⟨by decide, by decide +kernel, by decide +kernel,
    laid_supersets_enters Order.byLastDigit crossedPaths scantQuery (by decide)⟩

end Trie

end Containment
