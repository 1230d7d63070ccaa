import Containment.Proofs.Canonical
import Containment.Proofs.Order.Lawful
import Containment.Proofs.Order.Lexicographic

namespace Containment

variable {α : Type} {order : Order α}

namespace Order

/-! The first element of a class is what a search for the class finds. -/

section Foremost

variable [Std.TransCmp order] {elements : List α} {element other : α}

theorem foremost_iff_find? :
    order.Foremost elements element ↔
      elements.find? (order.equivalent element) = some element := by
  have hself : order element element = .eq := Std.ReflCmp.compare_self
  simp only [Foremost, List.find?_eq_some_iff_append, equivalent_eq_true, hself, true_and,
    Bool.not_eq_true', Bool.eq_false_iff, ne_eq, Std.OrientedCmp.eq_comm (a := element)]

/-- A class has one first element. -/
theorem Foremost.eq (helement : order.Foremost elements element)
    (hother : order.Foremost elements other) (heq : order element other = .eq) :
    element = other := by
  have hsame : order.equivalent element = order.equivalent other := by
    funext candidate
    rw [equivalent, equivalent, Std.TransCmp.congr_left heq]
  rw [foremost_iff_find?, hsame, foremost_iff_find?.mp hother] at helement
  exact (Option.some.inj helement).symm

/-- An ascending sequence of first elements is told by its classes. -/
theorem Ascends.eq_of_foremost {lefts rights : List α}
    (hlefts : order.Ascends lefts) (hrights : order.Ascends rights)
    (hclasses : order.classes lefts = order.classes rights)
    (hleft : ∀ left ∈ lefts, order.Foremost elements left)
    (hright : ∀ right ∈ rights, order.Foremost elements right) : lefts = rights := by
  have hmem : ∀ {firsts seconds : List α}, order.classes firsts = order.classes seconds →
      (∀ first ∈ firsts, order.Foremost elements first) →
      (∀ second ∈ seconds, order.Foremost elements second) →
      ∀ {first : α}, first ∈ firsts → first ∈ seconds := by
    intro firsts seconds hsame hfirsts hseconds first hfirst
    have hclass : order.classOf first ∈ order.classes seconds := by
      rw [← hsame]
      exact mem_classes.mpr ⟨first, hfirst, Std.ReflCmp.compare_self⟩
    obtain ⟨second, hsecond, heq⟩ := mem_classes.mp hclass
    rwa [(hfirsts first hfirst).eq (hseconds second hsecond) heq]
  refine hlefts.eq_of_mem_iff hrights fun element => ?_
  exact ⟨hmem hclasses hleft hright, hmem hclasses.symm hright hleft⟩

end Foremost

/-! A stable sort puts elements in order and leaves those of one class as they came. -/

def InOrder (order : Order α) (elements : List α) : Prop :=
  elements.Pairwise fun left right => (order left right).isLE = true

structure StablySorts (order : Order α) (elements sorted : List α) : Prop where
  perm : sorted.Perm elements
  inOrder : order.InOrder sorted
  filter_eq : ∀ element,
    sorted.filter (order.equivalent element) = elements.filter (order.equivalent element)

section Sorts

variable [Std.TransCmp order]

theorem StablySorts.foremost_iff {elements sorted : List α}
    (hsorts : order.StablySorts elements sorted) {element : α} :
    order.Foremost sorted element ↔ order.Foremost elements element := by
  rw [foremost_iff_find?, foremost_iff_find?, ← List.head?_filter, ← List.head?_filter,
    hsorts.filter_eq]

theorem StablySorts.classes_eq {elements sorted : List α}
    (hsorts : order.StablySorts elements sorted) :
    order.classes sorted = order.classes elements := by
  rw [classes, classes]
  exact List.toFinset_eq_of_perm _ _ (hsorts.perm.map _)

theorem isLE_total (left right : α) :
    ((order left right).isLE || (order right left).isLE) = true := by
  have hswap : order right left = (order left right).swap := Std.OrientedCmp.eq_swap
  rw [hswap]
  cases order left right <;> rfl

theorem inOrder_filter_equivalent (element : α) (elements : List α) :
    order.InOrder (elements.filter (order.equivalent element)) := by
  refine List.Pairwise.imp_of_mem (R := fun _ _ => True) ?_
    (List.pairwise_of_forall fun _ _ => trivial)
  intro left right hleft hright _
  have heqLeft := equivalent_eq_true.mp (List.mem_filter.mp hleft).2
  have heqRight := equivalent_eq_true.mp (List.mem_filter.mp hright).2
  rw [Std.TransCmp.eq_trans (Std.OrientedCmp.eq_symm heqLeft) heqRight]
  rfl

/-- The library's merge sort is such a sort. -/
theorem stablySorts_mergeSort (order : Order α) [Std.TransCmp order] (elements : List α) :
    order.StablySorts elements (elements.mergeSort fun left right => (order left right).isLE) where
  perm := List.mergeSort_perm elements _
  inOrder :=
    List.pairwise_mergeSort (fun _ _ _ => Std.TransCmp.isLE_trans) isLE_total elements
  filter_eq := by
    intro element
    have hperm := (List.mergeSort_perm elements fun left right => (order left right).isLE).filter
      (order.equivalent element)
    refine (List.Sublist.eq_of_length ?_ hperm.length_eq.symm).symm
    -- the elements of the class are in order already, so the sort keeps them as a sublist
    have hkept : List.Sublist (elements.filter (order.equivalent element))
        (elements.mergeSort fun left right => (order left right).isLE) :=
      List.sublist_mergeSort (fun _ _ _ => Std.TransCmp.isLE_trans) isLE_total
        (inOrder_filter_equivalent element elements) List.filter_sublist
    simpa using hkept.filter (order.equivalent element)

end Sorts

/-! In a list that is in order the neighbours that are dropped are those of one class. -/

section Repeats

theorem eraseRepsBy_loop (same : α → α → Bool) (kept : α) (rest front : List α) :
    List.eraseRepsBy.loop same kept rest front =
      front.reverse ++ List.eraseRepsBy.loop same kept rest [] := by
  induction rest generalizing kept front with
  | nil => simp [List.eraseRepsBy.loop]
  | cons next rest induction =>
      simp only [List.eraseRepsBy.loop]
      cases same kept next with
      | true => exact induction kept front
      | false => rw [induction next (kept :: front), induction next [kept]]; simp

theorem eraseRepsBy_cons_cons (same : α → α → Bool) (kept next : α) (rest : List α) :
    (kept :: next :: rest).eraseRepsBy same =
      if same kept next then (kept :: rest).eraseRepsBy same
      else kept :: (next :: rest).eraseRepsBy same := by
  simp only [List.eraseRepsBy, List.eraseRepsBy.loop]
  cases same kept next with
  | true => rfl
  | false => exact eraseRepsBy_loop same next rest [kept]

theorem exists_eraseRepsBy_cons (same : α → α → Bool) (kept : α) (rest : List α) :
    ∃ later, (kept :: rest).eraseRepsBy same = kept :: later := by
  induction rest with
  | nil => exact ⟨[], rfl⟩
  | cons next rest induction =>
      rw [eraseRepsBy_cons_cons]
      split
      · exact induction
      · exact ⟨_, rfl⟩

theorem InOrder.skip {kept next : α} {rest : List α}
    (hinOrder : order.InOrder (kept :: next :: rest)) : order.InOrder (kept :: rest) :=
  List.Pairwise.sublist (List.Sublist.cons_cons kept (List.sublist_cons_self next rest)) hinOrder

variable [Std.TransCmp order]

theorem InOrder.eraseReps_ascends {elements : List α} (hinOrder : order.InOrder elements) :
    order.Ascends (elements.eraseRepsBy order.equivalent) := by
  cases elements with
  | nil => exact ascends_nil
  | cons kept rest =>
      induction rest generalizing kept with
      | nil => exact ascends_singleton kept
      | cons next rest induction =>
          rw [eraseRepsBy_cons_cons]
          split
          case isTrue => exact induction kept hinOrder.skip
          case isFalse hdiffers =>
            have hlt : order kept next = .lt := by
              have hle := (List.pairwise_cons.mp hinOrder).1 next List.mem_cons_self
              rw [equivalent_eq_true] at hdiffers
              cases hstanding : order kept next <;> simp_all
            obtain ⟨later, hlater⟩ := exists_eraseRepsBy_cons order.equivalent next rest
            have hascends := induction next (List.pairwise_cons.mp hinOrder).2
            rw [hlater] at hascends ⊢
            exact hascends.cons_of_lt hlt

theorem classes_eraseReps (elements : List α) :
    order.classes (elements.eraseRepsBy order.equivalent) = order.classes elements := by
  cases elements with
  | nil => rfl
  | cons kept rest =>
      induction rest generalizing kept with
      | nil => rfl
      | cons next rest induction =>
          rw [eraseRepsBy_cons_cons]
          split
          case isTrue hsame =>
            rw [equivalent_eq_true] at hsame
            rw [induction kept, classes_cons, classes_cons, classes_cons,
              classOf_eq_iff.mpr hsame, Finset.insert_idem]
          case isFalse => rw [classes_cons, induction next, classes_cons kept]

theorem InOrder.foremost_of_mem_eraseReps {elements : List α} {element : α}
    (hinOrder : order.InOrder elements)
    (helement : element ∈ elements.eraseRepsBy order.equivalent) :
    order.Foremost elements element := by
  cases elements with
  | nil => cases helement
  | cons kept rest =>
      induction rest generalizing kept with
      | nil =>
          obtain rfl := List.mem_singleton.mp helement
          exact ⟨[], [], rfl, fun _ hother => absurd hother List.not_mem_nil⟩
      | cons next rest induction =>
          have hascends := hinOrder.eraseReps_ascends
          rw [eraseRepsBy_cons_cons] at helement hascends
          split at helement
          case isTrue hsame =>
            have hfound := induction kept hinOrder.skip helement
            have hnext : order.equivalent element next = order.equivalent element kept := by
              rw [equivalent, equivalent, Std.TransCmp.congr_right (equivalent_eq_true.mp hsame)]
            rw [foremost_iff_find?, List.find?_cons] at hfound ⊢
            rw [List.find?_cons, hnext]
            cases hkept : order.equivalent element kept <;> rw [hkept] at hfound <;> exact hfound
          case isFalse hdiffers =>
            rw [if_neg hdiffers] at hascends
            rcases List.mem_cons.mp helement with rfl | hlater
            · exact ⟨[], next :: rest, rfl, fun _ hother => absurd hother List.not_mem_nil⟩
            · obtain ⟨front, back, heq, hfirst⟩ :=
                induction next (List.pairwise_cons.mp hinOrder).2 hlater
              refine ⟨kept :: front, back, by rw [heq]; rfl, ?_⟩
              intro other hother
              rcases List.mem_cons.mp hother with rfl | hfront
              · rw [hascends.head_lt hlater]
                decide
              · exact hfirst other hfront

end Repeats

/-- An ascending sequence has a class that it has in exactly one place. -/
theorem Ascends.countP_equivalent [Std.TransCmp order] {elements : List α} {element : α}
    (hascends : order.Ascends elements) (hclass : ∃ other ∈ elements, order element other = .eq) :
    elements.countP (order.equivalent element) = 1 := by
  induction elements with
  | nil => simp at hclass
  | cons first rest induction =>
      by_cases heq : order element first = .eq
      · have hrest : rest.countP (order.equivalent element) = 0 := by
          rw [List.countP_eq_zero]
          intro later hlater
          rw [equivalent_eq_true, Std.TransCmp.congr_left heq, hascends.head_lt hlater]
          decide
        rw [List.countP_cons_of_pos (equivalent_eq_true.mpr heq), hrest]
      · rw [List.countP_cons_of_neg fun hsame => heq (equivalent_eq_true.mp hsame)]
        refine induction hascends.tail ?_
        obtain ⟨other, hother, hequivalent⟩ := hclass
        rcases List.mem_cons.mp hother with rfl | hlater
        · exact absurd hequivalent heq
        · exact ⟨other, hlater, hequivalent⟩

end Order

namespace Canonical

variable [Std.TransCmp order]

/-- To sort stably and to drop equivalent neighbours comes to the same as to place one
element after another. -/
theorem eraseReps_eq_arrange {elements sorted : List α}
    (hsorts : order.StablySorts elements sorted) :
    sorted.eraseRepsBy order.equivalent = arrange order elements := by
  have hforemost : ∀ element ∈ sorted.eraseRepsBy order.equivalent,
      order.Foremost elements element := fun element helement =>
    hsorts.foremost_iff.mp (hsorts.inOrder.foremost_of_mem_eraseReps helement)
  refine hsorts.inOrder.eraseReps_ascends.eq_of_foremost (arrange_ascends elements) ?_
    hforemost fun _ => foremost_of_mem_arrange
  rw [Order.classes_eraseReps, hsorts.classes_eq, classes_arrange]

theorem ofList?_of_ascends {sequence : List α} (hne : sequence ≠ [])
    (hascends : order.Ascends sequence) : ofList? order sequence = some ⟨sequence, hne⟩ := by
  obtain ⟨set, hset, _⟩ := ofList?_presents order hne
  obtain ⟨_, helements⟩ := elements_of_ofList? hset
  rw [arrange_of_ascends hascends] at helements
  cases set
  cases helements
  exact hset

/-! The canonical form of a list, and that there is one for what the list holds. -/

structure IsFormOf (order : Order α) (set : Canonical α) (elements : List α) : Prop where
  ascends : order.Ascends set.elements
  /-- Every element of the list is equivalent to one of the set in exactly one place. -/
  met_once : ∀ element ∈ elements, set.elements.countP (order.equivalent element) = 1
  foremost : ∀ element ∈ set.elements, order.Foremost elements element
  of_sorted : ∀ sorted, order.StablySorts elements sorted →
    sorted.eraseRepsBy order.equivalent = set.elements
  of_mergeSort :
    (elements.mergeSort fun left right => (order left right).isLE).eraseRepsBy order.equivalent =
      set.elements
  again : ofList? order set.elements = some set

theorem isFormOf_of_ofList? {set : Canonical α} {elements : List α}
    (hset : ofList? order elements = some set) : set.IsFormOf order elements := by
  obtain ⟨_, helements⟩ := elements_of_ofList? hset
  have hascends : order.Ascends set.elements := helements ▸ arrange_ascends elements
  constructor
  case ascends => exact hascends
  case met_once =>
    intro element helement
    apply hascends.countP_equivalent
    rw [← Order.mem_classes, helements, classes_arrange]
    exact Order.mem_classes.mpr ⟨element, helement, Std.ReflCmp.compare_self⟩
  case foremost =>
    intro element helement
    rw [helements] at helement
    exact foremost_of_mem_arrange helement
  case of_sorted =>
    intro sorted hsorts
    rw [eraseReps_eq_arrange hsorts, helements]
  case of_mergeSort =>
    rw [eraseReps_eq_arrange (Order.stablySorts_mergeSort order elements), helements]
  case again => exact ofList?_of_ascends set.nonempty hascends

/-- The form depends only on the classes of a list, up to equivalent elements. -/
theorem agree_of_classes_eq {lefts rights : List α} {left right : Canonical α}
    (hleft : ofList? order lefts = some left) (hright : ofList? order rights = some right)
    (hclasses : order.classes lefts = order.classes rights) :
    order.Agree left.elements right.elements := by
  obtain ⟨_, hlefts⟩ := elements_of_ofList? hleft
  obtain ⟨_, hrights⟩ := elements_of_ofList? hright
  rw [hlefts, hrights]
  apply (arrange_ascends lefts).agree_of_classes_eq (arrange_ascends rights)
  rw [classes_arrange, classes_arrange, hclasses]

structure GivesForms (order : Order α) [Std.TransCmp order] : Prop where
  none_iff : ∀ elements, ofList? order elements = none ↔ elements = []
  formed : ∀ elements, elements ≠ [] →
    ∃ set, ofList? order elements = some set ∧ set.IsFormOf order elements
  /-- Neither the order of a list nor what it repeats matters. -/
  alike : ∀ lefts rights left right, ofList? order lefts = some left →
    ofList? order rights = some right → order.classes lefts = order.classes rights →
      left.size = right.size ∧ order.Agree left.elements right.elements ∧
        ((∀ first second, order first second = .eq → first = second) → left = right)

theorem ofList?_givesForms (order : Order α) [Std.TransCmp order] : GivesForms order where
  none_iff _ := ofList?_eq_none_iff
  formed := by
    intro elements hne
    obtain ⟨set, hset, _⟩ := ofList?_presents order hne
    exact ⟨set, hset, isFormOf_of_ofList? hset⟩
  alike := by
    intro lefts rights left right hleft hright hclasses
    have hagree := agree_of_classes_eq hleft hright hclasses
    refine ⟨hagree.length_eq, hagree, ?_⟩
    intro hidentical
    cases left
    cases right
    cases hagree.eq hidentical
    rfl

/-- Two lists with the same last digits, among them repeated ones and none in order. -/
theorem ofList?_givesForms_lastDigits :
    ofList? Order.byLastDigit [13, 2, 22, 41, 3] = some ⟨[41, 2, 13], List.cons_ne_nil _ _⟩ ∧
      ofList? Order.byLastDigit [3, 32, 1, 23] = some ⟨[1, 32, 3], List.cons_ne_nil _ _⟩ ∧
      Order.byLastDigit.classes [13, 2, 22, 41, 3] = Order.byLastDigit.classes [3, 32, 1, 23] ∧
      GivesForms Order.byLastDigit ∧ Order.byLastDigit.Agree [41, 2, 13] [1, 32, 3] :=
  have hleft : ofList? Order.byLastDigit [13, 2, 22, 41, 3] =
      some ⟨[41, 2, 13], List.cons_ne_nil _ _⟩ := by decide +kernel
  have hright : ofList? Order.byLastDigit [3, 32, 1, 23] =
      some ⟨[1, 32, 3], List.cons_ne_nil _ _⟩ := by decide +kernel
  have hclasses : Order.byLastDigit.classes [13, 2, 22, 41, 3] =
      Order.byLastDigit.classes [3, 32, 1, 23] := by decide +kernel
  have hforms := ofList?_givesForms Order.byLastDigit
  ⟨hleft, hright, hclasses, hforms, (hforms.alike _ _ _ _ hleft hright hclasses).2.1⟩

end Canonical

end Containment
