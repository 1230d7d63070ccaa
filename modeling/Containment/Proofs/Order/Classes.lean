import Containment.Proofs.Order.Ascent
import Mathlib.Data.Finset.Card

namespace Containment.Order

variable {α : Type}

/-! Elements that a lawful order does not tell apart are one class. A list of
elements stands for the finite set of their classes. -/

def setoid (order : Order α) [Std.TransCmp order] : Setoid α where
  r left right := order left right = .eq
  iseqv :=
    { refl := fun _ => Std.ReflCmp.compare_self
      symm := Std.OrientedCmp.eq_symm
      trans := Std.TransCmp.eq_trans }

abbrev Class (order : Order α) [Std.TransCmp order] : Type :=
  Quotient order.setoid

instance (order : Order α) [Std.TransCmp order] : DecidableEq order.Class :=
  @Quotient.decidableEq α order.setoid fun left right =>
    inferInstanceAs (Decidable (order left right = .eq))

def classOf (order : Order α) [Std.TransCmp order] (element : α) : order.Class :=
  Quotient.mk order.setoid element

def classes (order : Order α) [Std.TransCmp order] (elements : List α) :
    Finset order.Class :=
  (elements.map order.classOf).toFinset

/-- Every element of the first list is equivalent to one of the second. -/
def Included (order : Order α) (small large : List α) : Prop :=
  ∀ element ∈ small, ∃ other ∈ large, order element other = .eq

instance (order : Order α) (small large : List α) :
    Decidable (order.Included small large) :=
  inferInstanceAs (Decidable (∀ element ∈ small, ∃ other ∈ large, order element other = .eq))

/-- The larger list has besides an element that is equivalent to none of the smaller. -/
def ProperlyIncluded (order : Order α) (small large : List α) : Prop :=
  order.Included small large ∧
    ∃ element ∈ large, ∀ other ∈ small, order element other ≠ .eq

instance (order : Order α) (small large : List α) :
    Decidable (order.ProperlyIncluded small large) :=
  inferInstanceAs (Decidable (order.Included small large ∧
    ∃ element ∈ large, ∀ other ∈ small, order element other ≠ .eq))

theorem included_cons {order : Order α} {key : α} {keys elements : List α} :
    order.Included (key :: keys) elements ↔
      (∃ element ∈ elements, order key element = .eq) ∧ order.Included keys elements := by
  simp [Included]

@[simp] theorem nil_included (order : Order α) (elements : List α) :
    order.Included [] elements :=
  fun _ helement => absurd helement List.not_mem_nil

@[simp] theorem not_included_nil (order : Order α) (key : α) (keys : List α) :
    ¬ order.Included (key :: keys) [] := by
  intro hincluded
  obtain ⟨_, hother, _⟩ := hincluded key List.mem_cons_self
  cases hother

theorem properlyIncluded_iff {order : Order α} {small large : List α} :
    order.ProperlyIncluded small large ↔
      order.Included small large ∧ ¬ order.Included large small := by
  simp [ProperlyIncluded, Included]

variable {order : Order α} [Std.TransCmp order]

theorem classOf_eq_iff {left right : α} :
    order.classOf left = order.classOf right ↔ order left right = .eq :=
  Quotient.eq (r := order.setoid)

@[simp] theorem classes_nil : order.classes [] = ∅ := rfl

@[simp] theorem classes_cons (first : α) (rest : List α) :
    order.classes (first :: rest) =
      insert (order.classOf first) (order.classes rest) := by
  simp [classes]

theorem mem_classes {elements : List α} {element : α} :
    order.classOf element ∈ order.classes elements ↔
      ∃ other ∈ elements, order element other = .eq := by
  simp only [classes, List.mem_toFinset, List.mem_map]
  constructor
  · intro hmem
    obtain ⟨other, hother, heq⟩ := hmem
    exact ⟨other, hother, classOf_eq_iff.mp heq.symm⟩
  · intro hexists
    obtain ⟨other, hother, heq⟩ := hexists
    exact ⟨other, hother, (classOf_eq_iff.mpr heq).symm⟩

theorem classes_eq_empty_iff {elements : List α} :
    order.classes elements = ∅ ↔ elements = [] := by
  simp [classes]

theorem classes_subset_iff {small large : List α} :
    order.classes small ⊆ order.classes large ↔ order.Included small large := by
  induction small with
  | nil => simp [Included]
  | cons first rest induction =>
      rw [classes_cons, Finset.insert_subset_iff, induction, mem_classes]
      simp [Included]

theorem classes_ssubset_iff {small large : List α} :
    order.classes small ⊂ order.classes large ↔ order.ProperlyIncluded small large := by
  rw [properlyIncluded_iff, Finset.ssubset_def, classes_subset_iff,
    classes_subset_iff]

theorem classes_eq_of_agree {lefts rights : List α}
    (hagree : order.Agree lefts rights) :
    order.classes lefts = order.classes rights := by
  induction hagree with
  | nil => rfl
  | cons heq _ induction =>
      rw [classes_cons, classes_cons, induction, classOf_eq_iff.mpr heq]

theorem agree_iff_map_classOf_eq {lefts rights : List α} :
    order.Agree lefts rights ↔ lefts.map order.classOf = rights.map order.classOf := by
  induction lefts generalizing rights with
  | nil => cases rights <;> simp [Agree]
  | cons left lefts induction =>
      cases rights with
      | nil => simp [Agree]
      | cons right rights =>
          rw [agree_cons, induction, List.map_cons, List.map_cons, List.cons.injEq,
            classOf_eq_iff]

/-! An ascending sequence has each of its classes once. -/

theorem Ascends.nodup_map_classOf {elements : List α}
    (hascends : order.Ascends elements) :
    (elements.map order.classOf).Nodup := by
  rw [List.Nodup, List.pairwise_map]
  refine hascends.imp ?_
  intro left right hlt heq
  rw [classOf_eq_iff.mp heq] at hlt
  contradiction

theorem Ascends.card_classes {elements : List α}
    (hascends : order.Ascends elements) :
    (order.classes elements).card = elements.length := by
  rw [classes, List.toFinset_card_of_nodup hascends.nodup_map_classOf,
    List.length_map]

/-- The least elements of one set of classes are equivalent. -/
private theorem Ascends.head_equivalent {left right : α} {lefts rights : List α}
    (hleft : order.Ascends (left :: lefts)) (hright : order.Ascends (right :: rights))
    (hclasses : order.classes (left :: lefts) = order.classes (right :: rights)) :
    order left right = .eq := by
  have hforward : ∃ other ∈ right :: rights, order left other = .eq := by
    rw [← mem_classes, ← hclasses, classes_cons]
    exact Finset.mem_insert_self _ _
  have hbackward : ∃ other ∈ left :: lefts, order right other = .eq := by
    rw [← mem_classes, hclasses, classes_cons]
    exact Finset.mem_insert_self _ _
  obtain ⟨inRight, hinRight, heqRight⟩ := hforward
  obtain ⟨inLeft, hinLeft, heqLeft⟩ := hbackward
  rcases List.mem_cons.mp hinRight with rfl | hinRights
  · exact heqRight
  rcases List.mem_cons.mp hinLeft with rfl | hinLefts
  · exact Std.OrientedCmp.eq_symm heqLeft
  have hbelow : order right left = .lt :=
    Std.TransCmp.lt_of_lt_of_eq (hright.head_lt hinRights)
      (Std.OrientedCmp.eq_symm heqRight)
  have habove : order left right = .lt :=
    Std.TransCmp.lt_of_lt_of_eq (hleft.head_lt hinLefts)
      (Std.OrientedCmp.eq_symm heqLeft)
  exact absurd habove (Std.OrientedCmp.not_lt_of_lt hbelow)

/-- The first class is missing from what follows it. -/
private theorem Ascends.classes_tail {first : α} {rest : List α}
    (hascends : order.Ascends (first :: rest)) :
    order.classes rest = (order.classes (first :: rest)).erase (order.classOf first) := by
  rw [classes_cons, Finset.erase_insert]
  intro hmem
  obtain ⟨other, hother, heq⟩ := mem_classes.mp hmem
  rw [hascends.head_lt hother] at heq
  contradiction

/-- There is one ascending sequence of a set of classes, up to equivalence. -/
theorem Ascends.agree_of_classes_eq {lefts rights : List α}
    (hleft : order.Ascends lefts) (hright : order.Ascends rights)
    (hclasses : order.classes lefts = order.classes rights) :
    order.Agree lefts rights := by
  induction lefts generalizing rights with
  | nil =>
      rw [classes_nil, eq_comm, classes_eq_empty_iff] at hclasses
      subst hclasses
      exact agree_nil
  | cons left lefts induction =>
      cases rights with
      | nil => exact absurd (classes_eq_empty_iff.mp hclasses) (List.cons_ne_nil _ _)
      | cons right rights =>
          have heq : order left right = .eq := hleft.head_equivalent hright hclasses
          refine agree_cons.mpr ⟨heq, induction hleft.tail hright.tail ?_⟩
          rw [hleft.classes_tail, hright.classes_tail, hclasses, classOf_eq_iff.mpr heq]

/-- Among ascending sequences one that is included is shorter exactly when it is
properly included. -/
theorem Ascends.length_lt_iff {small large : List α}
    (hsmall : order.Ascends small) (hlarge : order.Ascends large)
    (hincluded : order.Included small large) :
    small.length < large.length ↔ ¬ order.Included large small := by
  rw [← hsmall.card_classes, ← hlarge.card_classes, ← classes_subset_iff]
  have hsubset : order.classes small ⊆ order.classes large :=
    classes_subset_iff.mpr hincluded
  constructor
  · intro hlt hback
    exact absurd (Finset.card_le_card hback) (Nat.not_le_of_lt hlt)
  · intro hnot
    exact Finset.card_lt_card ⟨hsubset, hnot⟩

/-- An element below all of a sequence has no part in what is included in the whole. -/
theorem included_cons_right_of_lt {first : α} {keys rest : List α}
    (hbelow : ∀ key ∈ keys, order first key = .lt) :
    order.Included keys (first :: rest) ↔ order.Included keys rest := by
  constructor
  · intro hincluded key hkey
    obtain ⟨other, hother, heq⟩ := hincluded key hkey
    rcases List.mem_cons.mp hother with rfl | hrest
    · have hreverse := Std.OrientedCmp.eq_symm heq
      rw [hbelow key hkey] at hreverse
      contradiction
    · exact ⟨other, hrest, heq⟩
  · intro hincluded key hkey
    obtain ⟨other, hother, heq⟩ := hincluded key hkey
    exact ⟨other, List.mem_cons_of_mem first hother, heq⟩

end Containment.Order
