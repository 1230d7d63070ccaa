import Containment.Proofs.Index.Family
import Containment.Proofs.Index.Search
import Containment.Proofs.Trie.Dump

namespace Containment

variable {α : Type} {order : Order α}

/-! Lists of sets that are the same up to their order and to equivalent elements. -/

def SameSets (order : Order α) (lefts rights : List (List α)) : Prop :=
  ∃ middle, lefts.Perm middle ∧ List.Forall₂ order.Agree middle rights

theorem sameSets_of_perm {lefts rights leftFound rightFound : List (List α)}
    (hpairs : List.Forall₂ order.Agree lefts rights) (hleft : leftFound.Perm lefts)
    (hright : rightFound.Perm rights) : SameSets order leftFound rightFound := by
  have hmoved : Relation.Comp (List.Forall₂ order.Agree) List.Perm lefts rightFound :=
    ⟨rights, hpairs, hright.symm⟩
  rw [List.forall₂_comp_perm_eq_perm_comp_forall₂] at hmoved
  obtain ⟨middle, hperm, hagree⟩ := hmoved
  exact ⟨middle, hleft.trans hperm, hagree⟩

theorem SameSets.perm {lefts rights : List (List α)} (hsame : SameSets order lefts rights)
    (hidentical : ∀ first second, order first second = .eq → first = second) :
    lefts.Perm rights := by
  obtain ⟨middle, hperm, hpairs⟩ := hsame
  rwa [← Order.eq_of_forall₂_agree hidentical hpairs]

theorem Index.Sound.orderly {config : Config} {index : Index α}
    (hsound : Index.Sound order config index) : Trie.Orderly order index.trie where
  shaped := hsound.shaped
  sorted := hsound.sorted
  trimmed := hsound.trimmed

variable [Std.TransCmp order]

/-! The order of additions to a family does not matter: neither for what is in it at
the end, nor for how often each answer is given. -/

namespace Family

variable {limit : Nat} {family : Family order} {first second : List α}

theorem add_snd_cases (limit : Nat) (family : Family order) (elements : List α) :
    (family.add limit elements).2 = family ∨
      (family.add limit elements).2 = insert (order.classes elements) family := by
  unfold add
  dsimp only
  split
  · exact Or.inl rfl
  split
  · exact Or.inl rfl
  split
  · exact Or.inl rfl
  · exact Or.inr rfl

theorem subset_add (limit : Nat) (family : Family order) (elements : List α) :
    family ⊆ (family.add limit elements).2 := by
  rcases add_snd_cases limit family elements with heq | heq
  · rw [heq]
  · rw [heq]
    exact Finset.subset_insert _ _

theorem add_eq_of_classes_eq (limit : Nat) (family : Family order)
    (hclasses : order.classes first = order.classes second) :
    family.add limit first = family.add limit second := by
  have hempty : first = [] ↔ second = [] := by
    rw [← @Order.classes_eq_empty_iff _ order, hclasses, Order.classes_eq_empty_iff]
  simp only [add, hclasses, hempty]

/-- A set that is already in the family changes nothing for another one. -/
theorem add_insert {set : Finset order.Class} (hne : order.classes second ≠ set) :
    (insert set family : Family order).add limit second =
      ((family.add limit second).1, insert set (family.add limit second).2) := by
  have hmem : order.classes second ∈ insert set family ↔ order.classes second ∈ family := by
    rw [Finset.mem_insert, or_iff_right hne]
  unfold add
  dsimp only
  simp only [hmem]
  split
  · rfl
  split
  · rfl
  split
  · rfl
  · rw [Finset.insert_comm]

theorem add_add_of_ne (limit : Nat) (family : Family order)
    (hne : order.classes first ≠ order.classes second) :
    (family.add limit first).2.add limit second =
      ((family.add limit second).1,
        (family.add limit first).2 ∪ (family.add limit second).2) := by
  rcases add_snd_cases limit family first with heq | heq
  · rw [heq, Finset.union_eq_right.mpr (subset_add limit family second)]
  · rw [heq, add_insert hne.symm, Finset.insert_union,
      Finset.union_eq_right.mpr (subset_add limit family second)]

/-- Adds one set after another and collects the answers. -/
def addEach (limit : Nat) (family : Family order) :
    List (List α) → List (Except Refusal Bool) × Family order
  | [] => ([], family)
  | elements :: rest =>
      let added := family.add limit elements
      let later := added.2.addEach limit rest
      (added.1 :: later.1, later.2)

theorem addEach_append (limit : Nat) (family : Family order) (front back : List (List α)) :
    family.addEach limit (front ++ back) =
      ((family.addEach limit front).1 ++
          ((family.addEach limit front).2.addEach limit back).1,
        ((family.addEach limit front).2.addEach limit back).2) := by
  induction front generalizing family with
  | nil => rfl
  | cons elements front induction =>
      simp only [List.cons_append, addEach, induction]

private theorem addEach_swap (limit : Nat) (family : Family order) (first second : List α)
    (rest : List (List α)) :
    (family.addEach limit (first :: second :: rest)).1.Perm
        (family.addEach limit (second :: first :: rest)).1 ∧
      (family.addEach limit (first :: second :: rest)).2 =
        (family.addEach limit (second :: first :: rest)).2 := by
  by_cases hclasses : order.classes first = order.classes second
  · have hfirst : ∀ family : Family order,
        family.add limit first = family.add limit second :=
      fun family => add_eq_of_classes_eq limit family hclasses
    simp only [addEach, hfirst]
    exact ⟨List.Perm.refl _, trivial⟩
  · simp only [addEach, add_add_of_ne limit family hclasses,
      add_add_of_ne limit family (Ne.symm hclasses),
      Finset.union_comm (family.add limit second).2]
    exact ⟨List.Perm.swap _ _ _, trivial⟩

theorem addEach_perm (limit : Nat) {requests others : List (List α)}
    (hperm : requests.Perm others) (family : Family order) :
    (family.addEach limit requests).1.Perm (family.addEach limit others).1 ∧
      (family.addEach limit requests).2 = (family.addEach limit others).2 := by
  induction hperm generalizing family with
  | nil => exact ⟨List.Perm.refl _, rfl⟩
  | cons elements _ induction =>
      obtain ⟨hanswers, hfamily⟩ := induction (family.add limit elements).2
      exact ⟨hanswers.cons _, hfamily⟩
  | swap first second rest => exact addEach_swap limit family second first rest
  | trans _ _ front back =>
      obtain ⟨hfront, hmiddle⟩ := front family
      obtain ⟨hback, hfinal⟩ := back family
      exact ⟨hfront.trans hback, hmiddle.trans hfinal⟩

end Family

/-- What a search selects depends on the classes alone. -/
theorem Direction.selects_congr {query left right : List α} (direction : Direction)
    (hagree : order.Agree left right) :
    direction.Selects order query left ↔ direction.Selects order query right := by
  have hclasses := Order.classes_eq_of_agree hagree
  cases direction with
  | subsets =>
      rw [Selects, Selects, ← Order.classes_ssubset_iff, hclasses, Order.classes_ssubset_iff]
  | supersets =>
      rw [Selects, Selects, ← Order.classes_ssubset_iff, hclasses, Order.classes_ssubset_iff]

namespace Index

variable {config : Config} {left right : Index α} {family : Family order}

/-! Indexes that represent one family have the same to show. -/

private theorem stores_of_represents (hleft : Sound order config left)
    (hright : Sound order config right) (hleftFamily : Represents left.trie family)
    (hrightFamily : Represents right.trie family) (keys : List α)
    (hstores : left.trie.Stores keys) :
    ∃ other, right.trie.Stores other ∧ order.Agree keys other := by
  obtain ⟨other, hother, hclasses⟩ := (hrightFamily.mem_iff (order.classes keys)).mp
    ((hleftFamily.mem_iff _).mpr ⟨keys, hstores, rfl⟩)
  have hkeys := hleft.sorted.stores_ascends hleft.shaped hstores
  have hotherKeys := hright.sorted.stores_ascends hright.shaped hother
  exact ⟨other, hother, hkeys.agree_of_classes_eq hotherKeys hclasses.symm⟩

theorem Sound.alike (hleft : Sound order config left) (hright : Sound order config right)
    (hleftFamily : Represents left.trie family) (hrightFamily : Represents right.trie family) :
    Trie.Alike order left.trie right.trie where
  left_orderly := hleft.orderly
  right_orderly := hright.orderly
  forward := stores_of_represents hleft hright hleftFamily hrightFamily
  backward := stores_of_represents hright hleft hrightFamily hleftFamily

theorem Sound.search_sameSets (hleft : Sound order config left)
    (hright : Sound order config right) (halike : Trie.Alike order left.trie right.trie)
    (direction : Direction) (took : Elapsed) (query : List α) :
    ∃ lefts rights, (left.settle took (left.query direction query)).answer = .ok lefts ∧
      (right.settle took (right.query direction query)).answer = .ok rights ∧
      SameSets order lefts rights := by
  obtain ⟨leftFindings, hleftSearch, hleftPerm⟩ := hleft.search_perm direction query
  obtain ⟨rightFindings, hrightSearch, hrightPerm⟩ := hright.search_perm direction query
  refine ⟨_, _, query_answer hleftSearch, query_answer hrightSearch,
    sameSets_of_perm (List.rel_filter ?_ halike.storedBelow) hleftPerm hrightPerm⟩
  intro leftKeys rightKeys hagree
  simp only [decide_eq_true_eq, direction.selects_congr hagree]

theorem Sound.contains_same (hleft : Sound order config left)
    (hright : Sound order config right) (hleftFamily : Represents left.trie family)
    (hrightFamily : Represents right.trie family) (took : Elapsed) (elements : List α) :
    ∃ held, (left.contains took elements).answer = .ok held ∧
      (right.contains took elements).answer = .ok held := by
  obtain ⟨leftHeld, hleftAnswer, hleftIff⟩ :=
    hleft.contains_answer hleftFamily took elements
  obtain ⟨rightHeld, hrightAnswer, hrightIff⟩ :=
    hright.contains_answer hrightFamily took elements
  have hsame : leftHeld = rightHeld := Bool.eq_iff_iff.mpr (hleftIff.trans hrightIff.symm)
  exact ⟨leftHeld, hleftAnswer, hsame ▸ hrightAnswer⟩

end Index

end Containment
