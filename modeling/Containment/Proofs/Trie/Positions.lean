import Containment.Proofs.Bisect
import Containment.Proofs.Except
import Containment.Trie.Subsets
import Containment.Trie.Supersets

namespace Containment

variable {ι κ ω ρ α : Type}

/-! An entry and parts of a list told by positions. A position beyond the list is a
fault. -/

def elementAt (entries : List ι) (position : Nat) : Except Fault ι :=
  match entries[position]? with
  | some entry => .ok entry
  | none => .error (.outOfBounds entries.length position)

def partFrom (entries : List ι) (start : Nat) : Except Fault (List ι) :=
  if start ≤ entries.length then
    .ok (entries.drop start)
  else
    .error (.outOfBounds entries.length start)

def partTo (entries : List ι) (bound : Nat) : Except Fault (List ι) :=
  if bound ≤ entries.length then
    .ok (entries.take bound)
  else
    .error (.outOfBounds entries.length bound)

theorem elementAt_eq {entries : List ι} {position : Nat} (hposition : position < entries.length) :
    elementAt entries position = .ok entries[position] := by
  simp only [elementAt, List.getElem?_eq_getElem hposition]

theorem partFrom_eq {entries : List ι} {start : Nat} (hstart : start ≤ entries.length) :
    partFrom entries start = .ok (entries.drop start) :=
  if_pos hstart

theorem partTo_eq {entries : List ι} {bound : Nat} (hbound : bound ≤ entries.length) :
    partTo entries bound = .ok (entries.take bound) :=
  if_pos hbound

/-- What was met is the entry at its position, and a gap is no further than the end. -/
def Spot.Within (entries : List ι) : Spot ι → Prop
  | .met position entry => elementAt entries position = .ok entry
  | .gap position => position ≤ entries.length

theorem bisect_within (standing : ι → Ordering) (entries : List ι) :
    (bisect standing entries).Within entries := by
  cases hspot : bisect standing entries with
  | met position entry =>
      obtain ⟨hposition, rfl⟩ := List.getElem?_eq_some_iff.mp (bisect_met_at hspot)
      exact elementAt_eq hposition
  | gap position => exact bisect_gap_le hspot

namespace Trie

/-! Pending items may stand for others. If their visits lead to items that stand for
what the visits to those others lead to, the traversals are one. -/

def Visit.map (image : κ → ω) (visit : Visit κ ρ) : Visit ω ρ :=
  { yields := visit.yields, next := visit.next.map image }

def Visited.map (image : κ → ω) (visited : Visited κ ρ) : Visited ω ρ :=
  { item := image visited.item, yields := visited.yields }

theorem Findings.ofVisited_map (image : κ → ω) (visited : List (Visited κ (List α))) :
    Findings.ofVisited (visited.map (Visited.map image)) = Findings.ofVisited visited := by
  simp [Findings.ofVisited, harvest, List.flatMap_map, Visited.map]

section Standing

variable (image : κ → ω) (good : κ → Prop) {visitAt : κ → Except Fault (Visit κ ρ)}
  {visit : ω → Except Fault (Visit ω ρ)}

theorem walk_map
    (hvisit : ∀ item, good item → visit (image item) = (visitAt item).map (Visit.map image))
    (hnext : ∀ item found, good item → visitAt item = .ok found →
      ∀ next ∈ found.next, good next)
    (budget : Nat) {pending : List κ} (hpending : ∀ item ∈ pending, good item) :
    walk visit budget (pending.map image) =
      (walk visitAt budget pending).map (List.map (Visited.map image)) := by
  induction budget generalizing pending with
  | zero => cases pending <;> rfl
  | succ budget induction =>
      cases pending with
      | nil => rfl
      | cons item pending =>
          have hitem : good item := hpending item List.mem_cons_self
          simp only [List.map_cons, walk, hvisit item hitem]
          cases hfound : visitAt item with
          | error fault => rfl
          | ok found =>
              have hgood : ∀ later ∈ found.next ++ pending, good later := by
                intro later hlater
                rcases List.mem_append.mp hlater with hnew | hold
                · exact hnext item found hitem hfound later hnew
                · exact hpending later (List.mem_cons_of_mem item hold)
              have hlater := induction hgood
              rw [List.map_append] at hlater
              simp only [Except.map, Except.ok_bind, Visit.map, hlater]
              cases walk visitAt budget (found.next ++ pending) <;> rfl

theorem findings_map {visitAt : κ → Except Fault (Visit κ (List α))}
    {visit : ω → Except Fault (Visit ω (List α))}
    (hvisit : ∀ item, good item → visit (image item) = (visitAt item).map (Visit.map image))
    (hnext : ∀ item found, good item → visitAt item = .ok found →
      ∀ next ∈ found.next, good next)
    (budget : Nat) {item : κ} (hitem : good item) :
    (walk visit budget [image item] >>= fun visited => .ok (Findings.ofVisited visited)) =
      walk visitAt budget [item] >>= fun visited => .ok (Findings.ofVisited visited) := by
  have hpending : ∀ other ∈ [item], good other := by simpa using hitem
  have hwalk := walk_map image good hvisit hnext budget hpending
  rw [List.map_singleton] at hwalk
  rw [hwalk]
  cases walk visitAt budget [item] with
  | error fault => rfl
  | ok visited => exact congrArg Except.ok (Findings.ofVisited_map image visited)

end Standing

/-! The searches with a position in the query in place of the elements that are left of
it. They look at the query from a position, at a position, and at the branches up to one. -/

structure Cursor where
  node : NodeId
  position : Nat
deriving DecidableEq

def Cursor.start : Cursor :=
  { node := root, position := 0 }

section Subsets

/-- A branch whose key the query holds, with the position after that key. -/
structure SharedAt (α : Type) where
  branch : Branch α
  next : Nat
deriving DecidableEq

/-- The branches whose keys occur in a window of the query that starts at `start`. -/
def sharedFrom (order : Order α) (start : Nat) : List (Branch α) → List α → List (SharedAt α)
  | [], _ => []
  | _ :: _, [] => []
  | branch :: branches, element :: window =>
      match order branch.key element with
      | .lt => sharedFrom order start branches (element :: window)
      | .gt => sharedFrom order (start + 1) (branch :: branches) window
      | .eq => { branch, next := start + 1 } :: sharedFrom order (start + 1) branches window
termination_by branches window => branches.length + window.length

def subsetYieldAt (trie : Trie α) (size : Nat) (shared : SharedAt α) :
    Except Fault (List (List α)) := do
  let node ← trie.node shared.branch.child
  if node.terminal && node.depth < size then
    return [← trie.pathTo shared.branch.child]
  else
    return []

def subsetNextAt (trie : Trie α) (size : Nat) (shared : SharedAt α) :
    Except Fault (List Cursor) := do
  let node ← trie.node shared.branch.child
  if shared.next < size && !node.isLeaf then
    return [{ node := shared.branch.child, position := shared.next }]
  else
    return []

def subsetVisitAt (trie : Trie α) (order : Order α) (query : List α) (cursor : Cursor) :
    Except Fault (Visit Cursor (List α)) := do
  let node ← trie.node cursor.node
  let window ← partFrom query cursor.position
  let shared := sharedFrom order cursor.position node.branches window
  let yields ← shared.mapM (trie.subsetYieldAt query.length)
  let next ← shared.mapM (trie.subsetNextAt query.length)
  return { yields := yields.flatten, next := next.reverse.flatten }

def properSubsetsAt (trie : Trie α) (order : Order α) (query : Canonical α) :
    Except Fault (Findings α) := do
  let visited ← walk (trie.subsetVisitAt order query.elements) trie.nodes.size [.start]
  return Findings.ofVisited visited

end Subsets

section Supersets

def supersetNextAt (order : Order α) (required : α) (position : Nat) (branch : Branch α) :
    Cursor :=
  if order.equivalent branch.key required then
    { node := branch.child, position := position + 1 }
  else
    { node := branch.child, position }

def supersetVisitAt (trie : Trie α) (order : Order α) (query : List α) (cursor : Cursor) :
    Except Fault (Visit Cursor (List α)) :=
  if cursor.position = query.length then do
    return { yields := ← trie.collect cursor.node query.length, next := [] }
  else do
    let required ← elementAt query cursor.position
    let node ← trie.node cursor.node
    let bound := partitionPoint (fun branch => order branch.key required != .gt) node.branches
    let branches ← partTo node.branches bound
    return { yields := []
             next := branches.map (supersetNextAt order required cursor.position) }

def properSupersetsAt (trie : Trie α) (order : Order α) (query : Canonical α) :
    Except Fault (Findings α) := do
  let visited ← walk (trie.supersetVisitAt order query.elements) trie.nodes.size [.start]
  return Findings.ofVisited visited

end Supersets

/-! In any trie and under any order, a search that starts at the beginning of its query
stays within it. -/

section Within

variable {trie : Trie α} {order : Order α} {query : List α}

def Cursor.Within (query : List α) (cursor : Cursor) : Prop :=
  cursor.position ≤ query.length

theorem Cursor.start_within (query : List α) : Cursor.start.Within query :=
  Nat.zero_le _

def Cursor.subsetItem (query : List α) (cursor : Cursor) : SubsetItem α :=
  { node := cursor.node, remaining := query.drop cursor.position }

@[simp] theorem Cursor.subsetItem_node (cursor : Cursor) :
    (cursor.subsetItem query).node = cursor.node := rfl

@[simp] theorem Cursor.subsetItem_remaining (cursor : Cursor) :
    (cursor.subsetItem query).remaining = query.drop cursor.position := rfl

def Cursor.supersetItem (query : List α) (cursor : Cursor) : SupersetItem α :=
  { node := cursor.node, required := query.drop cursor.position }

@[simp] theorem Cursor.supersetItem_node (cursor : Cursor) :
    (cursor.supersetItem query).node = cursor.node := rfl

@[simp] theorem Cursor.supersetItem_required (cursor : Cursor) :
    (cursor.supersetItem query).required = query.drop cursor.position := rfl

def SharedAt.shared (query : List α) (shared : SharedAt α) : Shared α :=
  { branch := shared.branch, remaining := query.drop shared.next }

private theorem drop_succ_of_drop {start : Nat} {element : α} {window : List α}
    (hwindow : query.drop start = element :: window) : query.drop (start + 1) = window := by
  rw [← List.tail_drop, hwindow, List.tail_cons]

theorem sharedWith_drop (order : Order α) (branches : List (Branch α)) {start : Nat}
    {window : List α} (hwindow : query.drop start = window) :
    sharedWith order branches window =
      (sharedFrom order start branches window).map (SharedAt.shared query) := by
  fun_induction sharedFrom order start branches window with
  | case1 => simp [sharedWith]
  | case2 => simp [sharedWith]
  | case3 start branch branches element window hlt induction =>
      rw [sharedWith]
      simp only [hlt]
      exact induction hwindow
  | case4 start branch branches element window hgt induction =>
      rw [sharedWith]
      simp only [hgt]
      exact induction (drop_succ_of_drop hwindow)
  | case5 start branch branches element window heq induction =>
      have hlater := drop_succ_of_drop hwindow
      rw [sharedWith]
      simp only [heq, induction hlater, List.map_cons, SharedAt.shared, hlater]

theorem subsetNext_shared (trie : Trie α) (shared : SharedAt α) :
    trie.subsetNext (shared.shared query) =
      (trie.subsetNextAt query.length shared).map (List.map (Cursor.subsetItem query)) := by
  unfold subsetNext subsetNextAt SharedAt.shared
  cases trie.node shared.branch.child with
  | error fault => rfl
  | ok node =>
      have hempty : (query.drop shared.next).isEmpty = true ↔ ¬ shared.next < query.length := by
        rw [List.isEmpty_iff, List.drop_eq_nil_iff, Nat.not_lt]
      by_cases hleft : shared.next < query.length <;> cases hleaf : node.isLeaf <;>
        simp [hempty, hleft, hleaf] <;> rfl

theorem subsetVisit_subsetItem (trie : Trie α) (order : Order α) {cursor : Cursor}
    (hwithin : cursor.Within query) :
    trie.subsetVisit order query.length (cursor.subsetItem query) =
      (trie.subsetVisitAt order query cursor).map (Visit.map (Cursor.subsetItem query)) := by
  rw [subsetVisit, subsetVisitAt, Cursor.subsetItem_node, Cursor.subsetItem_remaining]
  cases trie.node cursor.node with
  | error fault => rfl
  | ok node =>
      have hwindow : query.drop cursor.position = query.drop cursor.position := rfl
      have hshared := sharedWith_drop order node.branches hwindow
      have hyield : trie.subsetYield query.length ∘ SharedAt.shared query =
        trie.subsetYieldAt query.length := rfl
      have hnext : trie.subsetNext ∘ SharedAt.shared query = fun shared =>
          (trie.subsetNextAt query.length shared).map (List.map (Cursor.subsetItem query)) :=
        funext fun shared => subsetNext_shared trie shared
      simp only [Except.ok_bind, partFrom_eq hwithin, hshared, List.mapM_map, hyield, hnext,
        Except.mapM_map]
      cases List.mapM (trie.subsetYieldAt query.length) _ with
      | error fault => rfl
      | ok yields =>
          cases List.mapM (trie.subsetNextAt query.length) _ with
          | error fault => rfl
          | ok next =>
              have hflatten : (next.map (List.map (Cursor.subsetItem query))).reverse.flatten =
                  next.reverse.flatten.map (Cursor.subsetItem query) := by
                rw [← List.map_reverse, List.map_flatten]
              simp only [Except.map, Except.ok_bind, hflatten]
              rfl

theorem within_subsetNextAt {shared : SharedAt α} {cursors : List Cursor}
    (hcursors : trie.subsetNextAt query.length shared = .ok cursors) :
    ∀ cursor ∈ cursors, cursor.Within query := by
  obtain ⟨node, _, hcursors⟩ := Except.bind_eq_ok_iff.mp hcursors
  split at hcursors
  case isTrue hleft =>
    cases hcursors
    simp only [Bool.and_eq_true, decide_eq_true_eq] at hleft
    simpa [Cursor.Within] using Nat.le_of_lt hleft.1
  case isFalse =>
    cases hcursors
    simp

theorem within_subsetVisitAt {cursor : Cursor} {found : Visit Cursor (List α)}
    (hfound : trie.subsetVisitAt order query cursor = .ok found) :
    ∀ next ∈ found.next, next.Within query := by
  obtain ⟨node, _, hfound⟩ := Except.bind_eq_ok_iff.mp hfound
  obtain ⟨window, _, hfound⟩ := Except.bind_eq_ok_iff.mp hfound
  obtain ⟨yields, _, hfound⟩ := Except.bind_eq_ok_iff.mp hfound
  obtain ⟨nexts, hnexts, hfound⟩ := Except.bind_eq_ok_iff.mp hfound
  cases hfound
  intro next hnext
  obtain ⟨cursors, hmem, hcursor⟩ := List.mem_flatten.mp hnext
  obtain ⟨shared, _, hcursors⟩ :=
    Except.exists_of_mem_mapM hnexts (List.mem_reverse.mp hmem)
  exact within_subsetNextAt hcursors next hcursor

theorem supersetNext_eq_comp (order : Order α) {required : α} {later : List α}
    {position : Nat} (hquery : query.drop position = required :: later) :
    supersetNext order required later =
      Cursor.supersetItem query ∘ supersetNextAt order required position := by
  funext branch
  rw [Function.comp_apply, supersetNext, supersetNextAt]
  split
  · rw [Cursor.supersetItem, drop_succ_of_drop hquery]
  · rw [Cursor.supersetItem, hquery]

theorem supersetVisit_supersetItem (trie : Trie α) (order : Order α) {cursor : Cursor}
    (hwithin : cursor.Within query) :
    trie.supersetVisit order query.length (cursor.supersetItem query) =
      (trie.supersetVisitAt order query cursor).map (Visit.map (Cursor.supersetItem query)) := by
  rw [supersetVisit, supersetVisitAt, Cursor.supersetItem_node, Cursor.supersetItem_required]
  rcases Nat.eq_or_lt_of_le hwithin with hend | hleft
  · rw [if_pos hend, List.drop_of_length_le (Nat.le_of_eq hend.symm)]
    dsimp only
    cases trie.collect cursor.node query.length <;> rfl
  · have hdrop := List.drop_eq_getElem_cons hleft
    rw [if_neg (Nat.ne_of_lt hleft), hdrop]
    simp only [elementAt_eq hleft, Except.ok_bind]
    cases trie.node cursor.node with
    | error fault => rfl
    | ok node =>
        simp only [Except.ok_bind, partTo_eq (partitionPoint_le _ _), promising,
          supersetNext_eq_comp order hdrop, ← List.map_map]
        rfl

theorem within_supersetVisitAt {cursor : Cursor} {found : Visit Cursor (List α)}
    (hwithin : cursor.Within query)
    (hfound : trie.supersetVisitAt order query cursor = .ok found) :
    ∀ next ∈ found.next, next.Within query := by
  rw [supersetVisitAt] at hfound
  rcases Nat.eq_or_lt_of_le hwithin with hend | hleft
  · rw [if_pos hend] at hfound
    obtain ⟨sets, _, hfound⟩ := Except.bind_eq_ok_iff.mp hfound
    cases hfound
    simp
  · rw [if_neg (Nat.ne_of_lt hleft)] at hfound
    obtain ⟨required, _, hfound⟩ := Except.bind_eq_ok_iff.mp hfound
    obtain ⟨node, _, hfound⟩ := Except.bind_eq_ok_iff.mp hfound
    obtain ⟨branches, _, hfound⟩ := Except.bind_eq_ok_iff.mp hfound
    cases hfound
    intro next hnext
    obtain ⟨branch, _, rfl⟩ := List.mem_map.mp hnext
    rw [supersetNextAt]
    split
    · exact hleft
    · exact hwithin

end Within

/-! So the searches by positions are the ones that carry the remaining elements, and
break off for no reason of their own. -/

theorem properSubsetsAt_eq (trie : Trie α) (order : Order α) (query : Canonical α) :
    trie.properSubsetsAt order query = trie.properSubsets order query := by
  symm
  exact findings_map (Cursor.subsetItem query.elements) (Cursor.Within query.elements)
    (fun cursor => subsetVisit_subsetItem trie order)
    (fun cursor found _ => within_subsetVisitAt) trie.nodes.size (Cursor.start_within _)

theorem properSupersetsAt_eq (trie : Trie α) (order : Order α) (query : Canonical α) :
    trie.properSupersetsAt order query = trie.properSupersets order query := by
  symm
  exact findings_map (Cursor.supersetItem query.elements) (Cursor.Within query.elements)
    (fun cursor => supersetVisit_supersetItem trie order)
    (fun cursor found => within_supersetVisitAt) trie.nodes.size (Cursor.start_within _)

end Trie

end Containment
