import Containment.Proofs.Order.Classes

namespace Containment.Order

variable {α : Type} {first second : Order α}

/-! Two orders that find the same elements equivalent have the same classes, and say the
same of inclusion. -/

section Same

variable (hsame : ∀ left right, first left right = .eq ↔ second left right = .eq)
include hsame

theorem included_congr (small large : List α) :
    first.Included small large ↔ second.Included small large := by
  simp only [Included, hsame]

theorem properlyIncluded_congr (small large : List α) :
    first.ProperlyIncluded small large ↔ second.ProperlyIncluded small large := by
  simp only [ProperlyIncluded, Included, ne_eq, hsame]

variable [Std.TransCmp first] [Std.TransCmp second]

theorem classes_eq_congr {lefts rights : List α} :
    first.classes lefts = first.classes rights ↔
      second.classes lefts = second.classes rights := by
  simp only [Finset.Subset.antisymm_iff, classes_subset_iff, included_congr hsame]

theorem card_classes_congr (elements : List α) :
    (first.classes elements).card = (second.classes elements).card := by
  induction elements with
  | nil => rfl
  | cons element rest induction =>
      have hmem : first.classOf element ∈ first.classes rest ↔
          second.classOf element ∈ second.classes rest := by
        simp only [mem_classes, hsame]
      rw [classes_cons, classes_cons, Finset.card_insert_eq_ite, Finset.card_insert_eq_ite,
        induction]
      simp only [hmem]

end Same

/-! An order and its reverse are such a pair. What ascends under one of them is, read
backwards, what ascends under the other. -/

theorem eq_iff_reversed_eq [Std.TransCmp first] (left right : α) :
    first left right = .eq ↔ first.reversed left right = .eq :=
  Std.OrientedCmp.eq_comm

theorem ascends_reverse {elements : List α} :
    first.Ascends elements.reverse ↔ first.reversed.Ascends elements :=
  List.pairwise_reverse

theorem classes_reverse [Std.TransCmp first] (elements : List α) :
    first.classes elements.reverse = first.classes elements := by
  rw [classes, List.map_reverse, List.toFinset_reverse, classes]

/-! Lists of sets are compared by their classes, one set for one. -/

def Correspond (order : Order α) [Std.TransCmp order] (lefts rights : List (List α)) : Prop :=
  (lefts.map order.classes).Perm (rights.map order.classes)

theorem Correspond.filter [Std.TransCmp first] {lefts rights : List (List α)}
    (hcorrespond : first.Correspond lefts rights) (test : Finset first.Class → Bool) :
    first.Correspond (lefts.filter fun keys => test (first.classes keys))
      (rights.filter fun keys => test (first.classes keys)) := by
  have hfilter := List.Perm.filter test hcorrespond
  rwa [List.filter_map, List.filter_map] at hfilter

/-- Where equivalent elements are identical, one ascending and one descending list of the
same sets hold the same sequences, up to their direction. -/
theorem Correspond.perm_map_reverse [Std.TransCmp first] {lefts rights : List (List α)}
    (hidentical : ∀ left right, first left right = .eq → left = right)
    (hlefts : ∀ keys ∈ lefts, first.Ascends keys)
    (hrights : ∀ keys ∈ rights, first.reversed.Ascends keys)
    (hnodup : (lefts.map first.classes).Nodup) (hcorrespond : first.Correspond lefts rights) :
    rights.Perm (lefts.map List.reverse) := by
  have hsequence : ∀ left ∈ lefts, ∀ right ∈ rights,
      first.classes left = first.classes right → right = left.reverse := by
    intro left hleft right hright hclasses
    rw [← classes_reverse right] at hclasses
    have hascends : first.Ascends right.reverse := ascends_reverse.mpr (hrights right hright)
    rw [((hlefts left hleft).agree_of_classes_eq hascends hclasses).eq hidentical,
      List.reverse_reverse]
  have hreversed : (lefts.map List.reverse).Nodup :=
    hnodup.of_map.map List.reverse_injective
  have hrightNodup : rights.Nodup := (hcorrespond.nodup_iff.mp hnodup).of_map
  apply (List.perm_ext_iff_of_nodup hrightNodup hreversed).mpr
  intro keys
  constructor
  · intro hright
    obtain ⟨left, hleft, hclasses⟩ :=
      List.mem_map.mp (hcorrespond.mem_iff.mpr (List.mem_map_of_mem hright))
    rw [hsequence left hleft keys hright hclasses]
    exact List.mem_map_of_mem hleft
  · intro hmapped
    obtain ⟨left, hleft, rfl⟩ := List.mem_map.mp hmapped
    obtain ⟨right, hright, hclasses⟩ :=
      List.mem_map.mp (hcorrespond.mem_iff.mp (List.mem_map_of_mem hleft))
    rwa [← hsequence left hleft right hright hclasses.symm]

end Containment.Order
