import Containment.Trie.Walk
import Containment.Proofs.Except
import Containment.Proofs.Trie.Routes
import Mathlib.Data.List.Flatten
import Mathlib.Data.List.Perm.Basic

namespace Containment.Trie

variable {α ω ρ σ : Type}

/-! Traversals that work through all of their items. Apart from the bound on the
number of visits they are what `walk` does. -/

inductive Traversal (visit : ω → Except Fault (Visit ω ρ)) :
    List ω → List (Visited ω ρ) → Prop
  | done : Traversal visit [] []
  | step {item : ω} {pending : List ω} {found : Visit ω ρ}
      {later : List (Visited ω ρ)} (hvisit : visit item = .ok found)
      (hrest : Traversal visit (found.next ++ pending) later) :
      Traversal visit (item :: pending) ({ item, yields := found.yields } :: later)

namespace Traversal

variable {visit : ω → Except Fault (Visit ω ρ)} {pending front back : List ω}
  {visited frontVisited backVisited : List (Visited ω ρ)}

theorem walk_eq (htraversal : Traversal visit pending visited) {budget : Nat}
    (hbudget : visited.length ≤ budget) : walk visit budget pending = .ok visited := by
  induction htraversal generalizing budget with
  | done => exact walk_nil visit budget
  | step hvisit _ induction =>
      obtain ⟨budget, rfl⟩ := Nat.exists_eq_succ_of_ne_zero
        (Nat.ne_of_gt (Nat.lt_of_lt_of_le (Nat.succ_pos _) hbudget))
      simp only [walk, hvisit, Except.ok_bind, induction (Nat.le_of_succ_le_succ hbudget)]
      rfl

theorem append (hfront : Traversal visit front frontVisited)
    (hback : Traversal visit back backVisited) :
    Traversal visit (front ++ back) (frontVisited ++ backVisited) := by
  induction hfront with
  | done => exact hback
  | step hvisit _ induction =>
      rw [List.append_assoc] at induction
      exact .step hvisit induction

/-! What a whole traversal shows follows from what each visit shows: `total item` is
to be shown by the visit to the item and all visits it leads to. -/

section Total

private theorem good_of_step {good : ω → Prop} {item : ω} {next pending : List ω}
    (hnext : ∀ later ∈ next, good later) (hgood : ∀ later ∈ item :: pending, good later) :
    ∀ later ∈ next ++ pending, good later := by
  intro later hlater
  rcases List.mem_append.mp hlater with hnew | hold
  · exact hnext later hnew
  · exact hgood later (List.mem_cons_of_mem item hold)

variable (good : ω → Prop) (view : Visited ω ρ → List σ) (total : ω → List σ)

theorem visit_of_mem
    (hnext : ∀ item found, good item → visit item = .ok found →
      ∀ next ∈ found.next, good next)
    (htraversal : Traversal visit pending visited) (hgood : ∀ item ∈ pending, good item)
    {entry : Visited ω ρ} (hentry : entry ∈ visited) :
    good entry.item ∧
      ∃ found, visit entry.item = .ok found ∧ found.yields = entry.yields := by
  induction htraversal with
  | done => contradiction
  | @step item pending found later hvisit _ induction =>
      have hitem := hgood item List.mem_cons_self
      rcases List.mem_cons.mp hentry with rfl | hlater
      · exact ⟨hitem, found, hvisit, rfl⟩
      · exact induction (good_of_step (hnext item found hitem hvisit) hgood) hlater

/-- `stands` may be any way for one list to stand for another. -/
private theorem flatMap_related {stands : List σ → List σ → Prop} (hrefl : ∀ list, stands list list)
    (htrans : ∀ {left middle right}, stands left middle → stands middle right → stands left right)
    (happend : ∀ {left right after behind}, stands left right → stands after behind →
      stands (left ++ after) (right ++ behind))
    (hstep : ∀ item found, good item → visit item = .ok found →
      (∀ next ∈ found.next, good next) ∧
        stands (view { item, yields := found.yields } ++ found.next.flatMap total)
          (total item))
    (htraversal : Traversal visit pending visited) (hgood : ∀ item ∈ pending, good item) :
    stands (visited.flatMap view) (pending.flatMap total) := by
  induction htraversal with
  | done => exact hrefl _
  | @step item pending found later hvisit _ induction =>
      obtain ⟨hnext, hstands⟩ := hstep item found (hgood item List.mem_cons_self) hvisit
      have hlater : stands (later.flatMap view) ((found.next ++ pending).flatMap total) :=
        induction (good_of_step hnext hgood)
      rw [List.flatMap_append] at hlater
      have hmoved := happend (hrefl (view { item, yields := found.yields })) hlater
      rw [← List.append_assoc] at hmoved
      rw [List.flatMap_cons, List.flatMap_cons]
      exact htrans hmoved (happend hstands (hrefl (pending.flatMap total)))

theorem flatMap_perm
    (hstep : ∀ item found, good item → visit item = .ok found →
      (∀ next ∈ found.next, good next) ∧
        (view { item, yields := found.yields } ++ found.next.flatMap total).Perm
          (total item))
    (htraversal : Traversal visit pending visited) (hgood : ∀ item ∈ pending, good item) :
    (visited.flatMap view).Perm (pending.flatMap total) :=
  flatMap_related good view total List.Perm.refl List.Perm.trans List.Perm.append hstep
    htraversal hgood

theorem flatMap_eq
    (hstep : ∀ item found, good item → visit item = .ok found →
      (∀ next ∈ found.next, good next) ∧
        view { item, yields := found.yields } ++ found.next.flatMap total = total item)
    (htraversal : Traversal visit pending visited) (hgood : ∀ item ∈ pending, good item) :
    visited.flatMap view = pending.flatMap total :=
  flatMap_related good view total Eq.refl Eq.trans (congrArg₂ List.append) hstep
    htraversal hgood

theorem flatMap_subperm
    (hstep : ∀ item found, good item → visit item = .ok found →
      (∀ next ∈ found.next, good next) ∧
        (view { item, yields := found.yields } ++ found.next.flatMap total).Subperm
          (total item))
    (htraversal : Traversal visit pending visited) (hgood : ∀ item ∈ pending, good item) :
    (visited.flatMap view).Subperm (pending.flatMap total) :=
  flatMap_related good view total List.Subperm.refl List.Subperm.trans List.Subperm.append
    hstep htraversal hgood

end Total

end Traversal

/-! All that is ever put on the list of pending items: the first ones and what the
visits put there. -/

def nextOf (visit : ω → Except Fault (Visit ω ρ)) (item : ω) : List ω :=
  match visit item with
  | .ok found => found.next
  | .error _ => []

theorem nextOf_eq {visit : ω → Except Fault (Visit ω ρ)} {item : ω} {found : Visit ω ρ}
    (hvisit : visit item = .ok found) : nextOf visit item = found.next := by
  unfold nextOf
  rw [hvisit]

def pushed (visit : ω → Except Fault (Visit ω ρ)) (pending : List ω)
    (visited : List (Visited ω ρ)) : List ω :=
  pending ++ visited.flatMap fun entry => nextOf visit entry.item

theorem Traversal.pushed_perm {visit : ω → Except Fault (Visit ω ρ)} {pending : List ω}
    {visited : List (Visited ω ρ)} (htraversal : Traversal visit pending visited) :
    (pushed visit pending visited).Perm (visited.map Visited.item) := by
  induction htraversal with
  | done => exact .refl _
  | @step item pending found later hvisit _ induction =>
      unfold pushed at induction ⊢
      rw [List.flatMap_cons, List.map_cons, nextOf_eq hvisit, List.cons_append, List.perm_cons,
        ← List.append_assoc]
      exact (List.perm_append_comm.append_right _).trans induction

/-- What is visited was pending from the first, or a visit to another item led to it. -/
theorem Traversal.mem_items_iff {visit : ω → Except Fault (Visit ω ρ)} {pending : List ω}
    {visited : List (Visited ω ρ)} (htraversal : Traversal visit pending visited) {item : ω} :
    item ∈ visited.map Visited.item ↔
      item ∈ pending ∨ ∃ earlier ∈ visited.map Visited.item, item ∈ nextOf visit earlier := by
  rw [← htraversal.pushed_perm.mem_iff, pushed, List.mem_append, List.mem_flatMap]
  simp only [List.mem_map, exists_exists_and_eq_and]

/-! Visits to the nodes of a trie go down when each leads to children of its node
only, and to none of them twice. They come to an end. -/

def Descends (trie : Trie α) (place : ω → NodeId)
    (visit : ω → Except Fault (Visit ω ρ)) : Prop :=
  ∀ item node, trie.node (place item) = .ok node →
    ∃ found, visit item = .ok found ∧ (found.next.map place).Subperm node.children

section Descends

variable {trie : Trie α} {place : ω → NodeId} {visit : ω → Except Fault (Visit ω ρ)}

private theorem exists_traversal_of_each {bound : ω → List NodeId} {pending : List ω}
    (heach : ∀ item ∈ pending, ∃ visited, Traversal visit [item] visited ∧
      (visited.map fun entry => place entry.item).Subperm (bound item)) :
    ∃ visited, Traversal visit pending visited ∧
      (visited.map fun entry => place entry.item).Subperm (pending.flatMap bound) := by
  induction pending with
  | nil => exact ⟨[], .done, List.Subperm.refl _⟩
  | cons item pending induction =>
      obtain ⟨first, hfirst, hfirstBound⟩ := heach item List.mem_cons_self
      obtain ⟨later, hlater, hlaterBound⟩ := induction fun next hnext =>
        heach next (List.mem_cons_of_mem item hnext)
      refine ⟨first ++ later, hfirst.append hlater, ?_⟩
      rw [List.map_append, List.flatMap_cons]
      exact hfirstBound.append hlaterBound

theorem subperm_flatMap {ι κ : Type} {few many : List ι} (image : ι → List κ)
    (hsubperm : few.Subperm many) : (few.flatMap image).Subperm (many.flatMap image) := by
  obtain ⟨middle, hperm, hsublist⟩ := hsubperm
  exact ⟨middle.flatMap image, hperm.flatMap_right image, hsublist.flatMap image⟩

theorem nodup_of_subperm {few many : List NodeId} (hsubperm : few.Subperm many)
    (hnodup : many.Nodup) : few.Nodup := by
  obtain ⟨middle, hperm, hsublist⟩ := hsubperm
  exact hperm.nodup_iff.mp (hsublist.nodup hnodup)

/-- No node is visited twice, and none that does not hang below the first item. -/
theorem Descends.exists_traversal (hshaped : trie.Shaped)
    (hdescends : Descends trie place visit) {item : ω}
    (hitem : place item < trie.nodes.size) :
    ∃ visited, Traversal visit [item] visited ∧
      (visited.map fun entry => place entry.item).Subperm
        (trie.descendants (place item)) := by
  suffices hevery : ∀ other, place other = place item →
      ∃ visited, Traversal visit [other] visited ∧
        (visited.map fun entry => place entry.item).Subperm
          (trie.descendants (place item)) from hevery item rfl
  -- Two items may stand at one node, so the induction is on nodes, for every item there.
  apply hshaped.descent (motive := fun id => ∀ other, place other = id →
    ∃ visited, Traversal visit [other] visited ∧
      (visited.map fun entry => place entry.item).Subperm (trie.descendants id)) _ hitem
  intro id node hnode induction other hplace
  subst hplace
  obtain ⟨found, hvisit, hnext⟩ := hdescends other node hnode
  obtain ⟨later, hlater, hbound⟩ :=
    @exists_traversal_of_each ω ρ place visit (fun next => trie.descendants (place next))
      found.next (by
        intro next hmem
        have hchild : place next ∈ node.children :=
          hnext.subset (List.mem_map_of_mem hmem)
        obtain ⟨branch, hbranch, heq⟩ := List.mem_map.mp hchild
        have hbelow := induction branch hbranch next heq.symm
        rwa [heq] at hbelow)
  refine ⟨_, .step hvisit (by rwa [List.append_nil]), ?_⟩
  rw [hshaped.descendants_eq hnode, List.map_cons, List.subperm_cons]
  refine hbound.trans ?_
  have hchildren := subperm_flatMap trie.descendants hnext
  rwa [List.flatMap_map] at hchildren

theorem Descends.exists_walk (hshaped : trie.Shaped)
    (hdescends : Descends trie place visit) (item : ω)
    (hitem : place item < trie.nodes.size) :
    ∃ visited, walk visit trie.nodes.size [item] = .ok visited ∧
      Traversal visit [item] visited ∧
      (visited.map fun entry => place entry.item).Subperm
        (trie.descendants (place item)) := by
  obtain ⟨visited, htraversal, hbound⟩ := hdescends.exists_traversal hshaped hitem
  have hlength := hbound.length_le
  rw [List.length_map] at hlength
  have hbudget : visited.length ≤ trie.nodes.size :=
    Nat.le_trans hlength (hshaped.length_descendants_le hitem)
  exact ⟨visited, htraversal.walk_eq hbudget, htraversal, hbound⟩

end Descends

end Containment.Trie
