import Containment.Proofs.Canonical.Sorting
import Containment.Proofs.Trie.Interruption

namespace Containment.Canonical

variable {α : Type} {order : Order α}

/-! A sequence is a canonical form if it is not empty and ascends. The look at neighbours,
the way through sorting and the insertion into a trie all find out the same. -/

theorem ofAscending_eq_ok_iff [Std.TransCmp order] {sequence : List α} :
    (∃ set, ofAscending order sequence = .ok set) ↔ sequence ≠ [] ∧ order.Ascends sequence := by
  rw [← Order.ascending_eq_true_iff]
  cases sequence with
  | nil => simp [ofAscending]
  | cons first rest =>
      simp only [ofAscending]
      split <;> simp_all

theorem elements_of_ofAscending {sequence : List α} {set : Canonical α}
    (hset : ofAscending order sequence = .ok set) : set.elements = sequence := by
  cases sequence with
  | nil => cases hset
  | cons first rest =>
      simp only [ofAscending] at hset
      split at hset
      · cases hset
        rfl
      · cases hset

theorem ofAscending_eq_error {sequence : List α} {fault : Fault}
    (hfault : ofAscending order sequence = .error fault) :
    sequence = [] ∧ fault = .emptyCanonical ∨
      sequence ≠ [] ∧ fault = .unorderedCanonical := by
  cases sequence with
  | nil =>
      cases hfault
      exact Or.inl ⟨rfl, rfl⟩
  | cons first rest =>
      simp only [ofAscending] at hfault
      split at hfault
      · cases hfault
      · cases hfault
        exact Or.inr ⟨List.cons_ne_nil first rest, rfl⟩

section Forms

variable [Std.TransCmp order] {sequence : List α}

theorem isForm_iff :
    (∃ elements set, ofList? order elements = some set ∧ set.elements = sequence) ↔
      sequence ≠ [] ∧ order.Ascends sequence := by
  constructor
  · rintro ⟨elements, set, hset, rfl⟩
    exact ⟨set.nonempty, (isFormOf_of_ofList? hset).ascends⟩
  · rintro ⟨hne, hascends⟩
    exact ⟨sequence, ⟨sequence, hne⟩, ofList?_of_ascends hne hascends, rfl⟩

theorem isOwnForm_iff :
    (∃ set, ofList? order sequence = some set ∧ set.elements = sequence) ↔
      sequence ≠ [] ∧ order.Ascends sequence := by
  constructor
  · intro hown
    exact isForm_iff.mp ⟨sequence, hown⟩
  · rintro ⟨hne, hascends⟩
    exact ⟨⟨sequence, hne⟩, ofList?_of_ascends hne hascends, rfl⟩

end Forms

/-! Which sequences pass as canonical, and what becomes of the others. -/

structure AcceptsForms (order : Order α) : Prop where
  accepts_iff_own : ∀ sequence, (∃ set, ofAscending order sequence = .ok set) ↔
    ∃ set, ofList? order sequence = some set ∧ set.elements = sequence
  own_iff_form : ∀ sequence,
    (∃ set, ofList? order sequence = some set ∧ set.elements = sequence) ↔
      ∃ elements set, ofList? order elements = some set ∧ set.elements = sequence
  unchanged : ∀ sequence set, ofAscending order sequence = .ok set → set.elements = sequence
  refuses : ∀ sequence,
    (¬ ∃ elements set, ofList? order elements = some set ∧ set.elements = sequence) →
      ∃ fault, ofAscending order sequence = .error fault ∧
        (fault.message = "canonical set cannot be empty" ↔ sequence = [])
  /-- Whatever was inserted before under the order, a sequence that passes can be inserted. -/
  inserts : ∀ paths sequence set, ofAscending order sequence = .ok set →
    ∃ insertion, ((Trie.laid order paths).insertPath order sequence).1 = .ok insertion
  breaks : ∀ paths sequence fault, sequence ≠ [] → ofAscending order sequence = .error fault →
    ∃ standing, ((Trie.laid order paths).insertPath order sequence).1 =
      .error (.notAscending standing)

theorem ofAscending_acceptsForms (order : Order α) [Std.TransCmp order] :
    AcceptsForms order where
  accepts_iff_own _ := ofAscending_eq_ok_iff.trans isOwnForm_iff.symm
  own_iff_form _ := isOwnForm_iff.trans isForm_iff.symm
  unchanged _ _ := elements_of_ofAscending
  refuses := by
    intro sequence hnot
    rw [isForm_iff, ← ofAscending_eq_ok_iff] at hnot
    cases hresult : ofAscending order sequence with
    | ok set => exact absurd ⟨set, hresult⟩ hnot
    | error fault =>
        refine ⟨fault, rfl, ?_⟩
        rcases ofAscending_eq_error hresult with ⟨rfl, rfl⟩ | ⟨hne, rfl⟩
        · exact iff_of_true rfl rfl
        · exact iff_of_false (by decide) hne
  inserts := by
    intro paths sequence set hset
    have hsorted := Trie.laid_sorted order paths
    apply (hsorted.insertPath_eq_ok_iff (Trie.laid_shaped order paths) sequence).mpr
    rw [Order.ascending_eq_true_iff]
    exact ofAscending_eq_ok_iff.mp ⟨set, hset⟩
  breaks := by
    intro paths sequence fault hne hfault
    have hnot : ¬ order.Ascends sequence := by
      intro hascends
      obtain ⟨set, hset⟩ := ofAscending_eq_ok_iff.mpr ⟨hne, hascends⟩
      rw [hset] at hfault
      cases hfault
    obtain ⟨front, above, key, rest, rfl, hfront, hdescent⟩ := Order.exists_descent hnot
    have hsorted := Trie.laid_sorted order paths
    exact ⟨order above key,
      by rw [hsorted.insertPath_of_descent (Trie.laid_shaped order paths) hfront hdescent]⟩

/-- The accepted sequence shares its beginning with a path under other elements; the other
one ascends only up to equivalence. -/
theorem ofAscending_acceptsForms_crossedPaths :
    ofAscending Order.byLastDigit [31, 2, 8] = .ok ⟨[31, 2, 8], List.cons_ne_nil _ _⟩ ∧
      ofAscending Order.byLastDigit [31, 2, 12] = .error .unorderedCanonical ∧
      [(31 : Int), 2, 12] ≠ [] ∧ AcceptsForms Order.byLastDigit ∧
      (∃ insertion, ((Trie.laid Order.byLastDigit Trie.crossedPaths).insertPath
        Order.byLastDigit [31, 2, 8]).1 = .ok insertion) ∧
      ∃ standing, ((Trie.laid Order.byLastDigit Trie.crossedPaths).insertPath
        Order.byLastDigit [31, 2, 12]).1 = .error (.notAscending standing) :=
  have haccepted : ofAscending Order.byLastDigit [31, 2, 8] =
      .ok ⟨[31, 2, 8], List.cons_ne_nil _ _⟩ := by decide +kernel
  have hrefused : ofAscending Order.byLastDigit [31, 2, 12] = .error .unorderedCanonical := by
    decide +kernel
  have hne : [(31 : Int), 2, 12] ≠ [] := List.cons_ne_nil _ _
  have haccepts := ofAscending_acceptsForms Order.byLastDigit
  ⟨haccepted, hrefused, hne, haccepts, haccepts.inserts Trie.crossedPaths _ _ haccepted,
    haccepts.breaks Trie.crossedPaths _ _ hne hrefused⟩

end Containment.Canonical
