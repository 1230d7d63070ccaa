import Containment.Proofs.Index.Run
import Containment.Proofs.Order.Lawful
import Containment.Proofs.Trie.SubsetSearch
import Containment.Proofs.Trie.SupersetSearch

namespace Containment

variable {α : Type} {order : Order α} {config : Config} {index : Index α}

/-! Which stored sequences a search is to find, told without a trie. -/

def Direction.Selects (order : Order α) (query keys : List α) : Direction → Prop
  | .subsets => query ≠ [] ∧ order.ProperlyIncluded keys query
  | .supersets => query ≠ [] ∧ order.ProperlyIncluded query keys

instance (order : Order α) (query keys : List α) (direction : Direction) :
    Decidable (direction.Selects order query keys) :=
  match direction with
  | .subsets => inferInstanceAs (Decidable (query ≠ [] ∧ order.ProperlyIncluded keys query))
  | .supersets => inferInstanceAs (Decidable (query ≠ [] ∧ order.ProperlyIncluded query keys))

/-- Nothing is a proper subset of the empty set. -/
theorem Direction.selects_subsets_iff {query keys : List α} :
    Direction.subsets.Selects order query keys ↔ order.ProperlyIncluded keys query := by
  rw [Selects, and_iff_right_iff_imp]
  rintro hproper rfl
  obtain ⟨_, _, hmember, _⟩ := hproper
  cases hmember

namespace Canonical.Presents

variable [Std.TransCmp order] {set : Canonical α} {elements : List α}

theorem properlyIncluded_left_iff (hpresents : set.Presents order elements)
    (keys : List α) :
    order.ProperlyIncluded set.elements keys ↔ order.ProperlyIncluded elements keys := by
  rw [← Order.classes_ssubset_iff, hpresents.classes_eq, Order.classes_ssubset_iff]

theorem properlyIncluded_right_iff (hpresents : set.Presents order elements)
    (keys : List α) :
    order.ProperlyIncluded keys set.elements ↔ order.ProperlyIncluded keys elements := by
  rw [← Order.classes_ssubset_iff, hpresents.classes_eq, Order.classes_ssubset_iff]

end Canonical.Presents

/-- What a search selects differs from the query. -/
theorem Direction.Selects.classes_ne [Std.TransCmp order] {query keys : List α}
    {direction : Direction} (hselects : direction.Selects order query keys) :
    order.classes keys ≠ order.classes query := by
  cases direction with
  | subsets => exact (Order.classes_ssubset_iff.mpr hselects.2).ne
  | supersets => exact (Order.classes_ssubset_iff.mpr hselects.2).ne'

namespace Index

variable [Std.TransCmp order] {query : List α}

theorem query_answer {direction : Direction} {took : Elapsed}
    {findings : Trie.Findings α} (hsearch : index.search direction query = .ok findings) :
    (index.settle took (index.query direction query)).answer = .ok findings.sets := by
  unfold settle Index.query
  rw [hsearch]
  rfl

/-- A search finds what it is to find, each sequence once. -/
theorem Sound.search_perm (hsound : Sound order config index) (direction : Direction)
    (query : List α) :
    ∃ findings, index.search direction query = .ok findings ∧
      findings.sets.Perm ((index.trie.storedBelow Trie.root).filter fun keys =>
        decide (direction.Selects order query keys)) := by
  obtain rfl := hsound.order_eq
  by_cases hne : query = []
  · subst hne
    refine ⟨.none, rfl, List.Perm.of_eq ?_⟩
    symm
    apply List.filter_eq_nil_iff.mpr
    intro keys _
    cases direction <;> simp [Direction.Selects]
  · obtain ⟨set, hset, hpresents⟩ := Canonical.ofList?_presents index.order hne
    unfold search
    rw [hset]
    cases direction with
    | subsets =>
        obtain ⟨findings, hfound, hperm⟩ :=
          hsound.sorted.properSubsets_perm hsound.shaped hpresents.ascends
        refine ⟨findings, hfound, hperm.trans (List.Perm.of_eq (List.filter_congr ?_))⟩
        intro keys _
        simp [Direction.Selects, hne, hpresents.properlyIncluded_right_iff]
    | supersets =>
        obtain ⟨findings, hfound, hsets⟩ :=
          hsound.sorted.properSupersets_eq hsound.shaped hpresents.ascends
        refine ⟨findings, hfound, List.Perm.of_eq (hsets.trans (List.filter_congr ?_))⟩
        intro keys _
        simp [Direction.Selects, hne, hpresents.properlyIncluded_left_iff]

theorem Sound.exists_found (hsound : Sound order config index) (direction : Direction)
    (took : Elapsed) (query : List α) :
    ∃ stored found, index.sets = .ok stored ∧
      (index.settle took (index.query direction query)).answer = .ok found ∧
      found.Perm (stored.filter fun keys => decide (direction.Selects order query keys)) ∧
      ∀ keys ∈ found, order.classes keys ≠ order.classes query := by
  obtain ⟨findings, hsearch, hperm⟩ := hsound.search_perm direction query
  refine ⟨_, findings.sets, hsound.shaped.sequences_eq, query_answer hsearch, hperm, ?_⟩
  intro keys hkeys
  have hselects := List.of_mem_filter (hperm.mem_iff.mp hkeys)
  exact (of_decide_eq_true hselects).classes_ne

/-- After any run the subset search agrees with a scan of the stored sets. -/
theorem run_subsetsOf_perm (order : Order α) [Std.TransCmp order] (config : Config)
    (recorder : Recorder) (calls : List (Call α)) (took : Elapsed) (query : List α) :
    ∃ stored found, (run order config recorder calls).sets = .ok stored ∧
      ((run order config recorder calls).subsetsOf took query).answer = .ok found ∧
      found.Perm (stored.filter fun keys =>
        decide (query ≠ [] ∧ order.ProperlyIncluded keys query)) ∧
      ∀ keys ∈ found, order.classes keys ≠ order.classes query :=
  (run_sound order config recorder calls).exists_found .subsets took query

theorem run_subsetsOf_perm_digitCalls :
    ((run Order.byLastDigit .default .silent digitCalls).subsetsOf .zero
        [55, 31, 63, 1]).answer = .ok [[11]] ∧
      ∃ stored found,
        (run Order.byLastDigit .default .silent digitCalls).sets = .ok stored ∧
        ((run Order.byLastDigit .default .silent digitCalls).subsetsOf .zero
          [55, 31, 63, 1]).answer = .ok found ∧
        found.Perm (stored.filter fun keys => decide ([(55 : Int), 31, 63, 1] ≠ [] ∧
          Order.byLastDigit.ProperlyIncluded keys [55, 31, 63, 1])) ∧
        ∀ keys ∈ found, Order.byLastDigit.classes keys ≠
          Order.byLastDigit.classes [55, 31, 63, 1] :=
  ⟨by decide +kernel,
    run_subsetsOf_perm Order.byLastDigit .default .silent digitCalls .zero
      [55, 31, 63, 1]⟩

/-- After any run the superset search agrees with a scan of the stored sets. -/
theorem run_supersetsOf_perm (order : Order α) [Std.TransCmp order] (config : Config)
    (recorder : Recorder) (calls : List (Call α)) (took : Elapsed) (query : List α) :
    ∃ stored found, (run order config recorder calls).sets = .ok stored ∧
      ((run order config recorder calls).supersetsOf took query).answer = .ok found ∧
      found.Perm (stored.filter fun keys =>
        decide (query ≠ [] ∧ order.ProperlyIncluded query keys)) ∧
      ∀ keys ∈ found, order.classes keys ≠ order.classes query :=
  (run_sound order config recorder calls).exists_found .supersets took query

theorem run_supersetsOf_perm_digitCalls :
    ((run Order.byLastDigit .default .silent digitCalls).supersetsOf .zero
        [31, 1]).answer = .ok [[11, 13, 25]] ∧
      ∃ stored found,
        (run Order.byLastDigit .default .silent digitCalls).sets = .ok stored ∧
        ((run Order.byLastDigit .default .silent digitCalls).supersetsOf .zero
          [31, 1]).answer = .ok found ∧
        found.Perm (stored.filter fun keys => decide ([(31 : Int), 1] ≠ [] ∧
          Order.byLastDigit.ProperlyIncluded [31, 1] keys)) ∧
        ∀ keys ∈ found, Order.byLastDigit.classes keys ≠
          Order.byLastDigit.classes [31, 1] :=
  ⟨by decide +kernel,
    run_supersetsOf_perm Order.byLastDigit .default .silent digitCalls .zero [31, 1]⟩

end Index

end Containment
