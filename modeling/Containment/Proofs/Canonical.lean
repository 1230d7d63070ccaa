import Containment.Canonical
import Containment.Proofs.Order.Classes

namespace Containment.Canonical

variable {α : Type} {order : Order α}

theorem elements_of_ofList? {set : Canonical α} {elements : List α}
    (hset : ofList? order elements = some set) :
    elements ≠ [] ∧ set.elements = arrange order elements := by
  cases elements with
  | nil => cases hset
  | cons first rest =>
      cases hset
      exact ⟨List.cons_ne_nil first rest, rfl⟩

/-! Placing keeps the sequence ascending, adds nothing but the placed element, and
adds its class to the classes already there. -/

theorem mem_of_mem_place {element member : α} {kept : List α}
    (hmember : member ∈ place order element kept) :
    member = element ∨ member ∈ kept := by
  induction kept with
  | nil => simpa [place] using hmember
  | cons first rest induction =>
      simp only [place] at hmember
      split at hmember
      · simpa using hmember
      · exact Or.inr hmember
      · rcases List.mem_cons.mp hmember with rfl | hlater
        · exact Or.inr List.mem_cons_self
        · exact (induction hlater).imp_right (List.mem_cons_of_mem first)

variable [Std.TransCmp order]

theorem place_ascends {element : α} {kept : List α} (hkept : order.Ascends kept) :
    order.Ascends (place order element kept) := by
  induction kept with
  | nil => simp [place]
  | cons first rest induction =>
      simp only [place]
      split
      case h_1 hlt => exact hkept.cons_of_lt hlt
      case h_2 => exact hkept
      case h_3 hgt =>
        refine Order.ascends_cons.mpr ⟨?_, induction hkept.tail⟩
        intro later hlater
        rcases mem_of_mem_place hlater with rfl | hrest
        · exact Std.OrientedCmp.lt_of_gt hgt
        · exact hkept.head_lt hrest

theorem classes_place (element : α) (kept : List α) :
    order.classes (place order element kept) =
      insert (order.classOf element) (order.classes kept) := by
  induction kept with
  | nil => rfl
  | cons first rest induction =>
      simp only [place]
      split
      case h_1 => rw [Order.classes_cons]
      case h_2 heq =>
        rw [Order.classes_cons, Order.classOf_eq_iff.mpr heq, Finset.insert_idem]
      case h_3 =>
        rw [Order.classes_cons, Order.classes_cons, induction, Finset.insert_comm]

private theorem arrange_from (elements kept : List α) (hkept : order.Ascends kept) :
    order.Ascends
        (elements.foldl (fun kept element => place order element kept) kept) ∧
      order.classes
          (elements.foldl (fun kept element => place order element kept) kept) =
        order.classes elements ∪ order.classes kept := by
  induction elements generalizing kept with
  | nil => simpa using hkept
  | cons element elements induction =>
      obtain ⟨hascends, hclasses⟩ := induction _ (place_ascends hkept)
      refine ⟨hascends, ?_⟩
      rw [List.foldl_cons, hclasses, classes_place, Order.classes_cons,
        Finset.insert_union, Finset.union_insert]

theorem arrange_ascends (elements : List α) :
    order.Ascends (arrange order elements) :=
  (arrange_from elements [] Order.ascends_nil).1

@[simp] theorem classes_arrange (elements : List α) :
    order.classes (arrange order elements) = order.classes elements := by
  have hclasses : order.classes (arrange order elements) =
      order.classes elements ∪ order.classes [] :=
    (arrange_from elements [] Order.ascends_nil).2
  rwa [Order.classes_nil, Finset.union_empty] at hclasses

private theorem place_of_above {element : α} {kept : List α}
    (habove : ∀ other ∈ kept, order other element = .lt) :
    place order element kept = kept ++ [element] := by
  induction kept with
  | nil => rfl
  | cons first rest induction =>
      have hgt : order element first = .gt :=
        Std.OrientedCmp.gt_of_lt (habove first List.mem_cons_self)
      simp only [place, hgt, List.cons_append, List.cons.injEq, true_and]
      exact induction fun other hother => habove other (List.mem_cons_of_mem first hother)

/-- A canonical form is its own canonical form. -/
theorem arrange_of_ascends {elements : List α} (hascends : order.Ascends elements) :
    arrange order elements = elements := by
  induction elements using List.reverseRecOn with
  | nil => rfl
  | append_singleton elements last induction =>
      obtain ⟨hfront, _, hacross⟩ := List.pairwise_append.mp hascends
      have hplaced : arrange order (elements ++ [last]) =
          place order last (arrange order elements) := List.foldl_append
      rw [hplaced, induction hfront]
      exact place_of_above fun other hother => hacross other hother last List.mem_cons_self

/-! Of each class the element that comes first in the list is kept. -/

theorem mem_place_cases {element member : α} {kept : List α} (hkept : order.Ascends kept)
    (hmember : member ∈ place order element kept) :
    member ∈ kept ∨ member = element ∧ ∀ other ∈ kept, order element other ≠ .eq := by
  induction kept with
  | nil =>
      obtain rfl : member = element := by simpa [place] using hmember
      exact Or.inr ⟨rfl, fun _ hother => absurd hother List.not_mem_nil⟩
  | cons first rest induction =>
      simp only [place] at hmember
      split at hmember
      case h_1 hlt =>
        rcases List.mem_cons.mp hmember with rfl | hold
        · refine Or.inr ⟨rfl, ?_⟩
          intro other hother heq
          rw [(hkept.cons_of_lt hlt).head_lt hother] at heq
          contradiction
        · exact Or.inl hold
      case h_2 => exact Or.inl hmember
      case h_3 hgt =>
        rcases List.mem_cons.mp hmember with rfl | hlater
        · exact Or.inl List.mem_cons_self
        · rcases induction hkept.tail hlater with hold | ⟨rfl, hnone⟩
          · exact Or.inl (List.mem_cons_of_mem first hold)
          · refine Or.inr ⟨rfl, ?_⟩
            intro other hother
            rcases List.mem_cons.mp hother with rfl | hrest
            · rw [hgt]
              decide
            · exact hnone other hrest

theorem foremost_of_mem_arrange {elements : List α} {element : α}
    (helement : element ∈ arrange order elements) : order.Foremost elements element := by
  induction elements using List.reverseRecOn with
  | nil => exact absurd helement List.not_mem_nil
  | append_singleton elements last induction =>
      have hplaced : arrange order (elements ++ [last]) =
          place order last (arrange order elements) := List.foldl_append
      rw [hplaced] at helement
      rcases mem_place_cases (arrange_ascends elements) helement with hkept | ⟨rfl, hnone⟩
      · obtain ⟨front, back, rfl, hfirst⟩ := induction hkept
        exact ⟨front, back ++ [last], by simp, hfirst⟩
      · refine ⟨elements, [], rfl, ?_⟩
        intro other hother heq
        have hclass : order.classOf element ∈ order.classes (arrange order elements) := by
          rw [classes_arrange]
          exact Order.mem_classes.mpr ⟨other, hother, Std.OrientedCmp.eq_symm heq⟩
        obtain ⟨kept, hkept, hequivalent⟩ := Order.mem_classes.mp hclass
        exact hnone kept hkept hequivalent

/-! What a canonical form is to the list it is made of. -/

/-- The set is the ascending sequence of the classes of the list. -/
structure Presents (order : Order α) [Std.TransCmp order] (set : Canonical α)
    (elements : List α) : Prop where
  ascends : order.Ascends set.elements
  classes_eq : order.classes set.elements = order.classes elements

theorem Presents.size_eq {set : Canonical α} {elements : List α}
    (hpresents : set.Presents order elements) :
    set.size = (order.classes elements).card := by
  rw [← hpresents.classes_eq, hpresents.ascends.card_classes, size]

theorem Presents.ne_nil {set : Canonical α} {elements : List α}
    (hpresents : set.Presents order elements) : elements ≠ [] := by
  intro hempty
  have hclasses : order.classes set.elements = ∅ := by
    rw [hpresents.classes_eq, hempty, Order.classes_nil]
  exact set.nonempty (Order.classes_eq_empty_iff.mp hclasses)

theorem ofList?_presents (order : Order α) [Std.TransCmp order] {elements : List α}
    (hne : elements ≠ []) :
    ∃ set, ofList? order elements = some set ∧ set.Presents order elements := by
  cases elements with
  | nil => contradiction
  | cons first rest =>
      exact ⟨_, rfl, arrange_ascends _, classes_arrange _⟩

theorem presents_of_ofList? {set : Canonical α} {elements : List α}
    (hset : ofList? order elements = some set) : set.Presents order elements := by
  obtain ⟨form, hform, hpresents⟩ := ofList?_presents order (elements_of_ofList? hset).1
  rw [hset] at hform
  cases hform
  exact hpresents

end Containment.Canonical
