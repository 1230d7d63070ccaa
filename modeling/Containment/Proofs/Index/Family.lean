import Containment.Proofs.Index.Run
import Containment.Proofs.Order.Lawful
import Containment.Proofs.Trie.Collection

namespace Containment

variable {α : Type} {order : Order α} [Std.TransCmp order]

/-! What an index is to its callers: a family of sets, of which each is a set of
classes. The family knows of no sequences, nodes or marks. -/

abbrev Family (order : Order α) [Std.TransCmp order] := Finset (Finset order.Class)

namespace Family

def add (limit : Nat) (family : Family order) (elements : List α) :
    Except Refusal Bool × Family order :=
  let set := order.classes elements
  if set ∈ family then (.ok false, family)
  else if elements = [] then (.error .emptySet, family)
  else if limit < set.card then (.error (.setTooLarge set.card limit), family)
  else (.ok true, insert set family)

def contains (family : Family order) (elements : List α) : Prop :=
  elements ≠ [] ∧ order.classes elements ∈ family

/-- Only additions change the family. -/
def serve (limit : Nat) (family : Family order) : Request α → Family order
  | .add elements => (family.add limit elements).2
  | _ => family

def after (limit : Nat) (family : Family order) (requests : List (Request α)) :
    Family order :=
  requests.foldl (serve limit) family

end Family

/-! A trie represents the family of the class sets of its stored sequences. -/

structure Represents (trie : Trie α) (family : Family order) : Prop where
  stored_eq : trie.stored = family.card
  mem_iff : ∀ set, set ∈ family ↔
    ∃ keys, trie.Stores keys ∧ order.classes keys = set

theorem represents_empty : Represents (Trie.empty : Trie α) (∅ : Family order) where
  stored_eq := rfl
  mem_iff := by
    intro set
    constructor
    · intro hmem
      cases hmem
    · intro hstored
      obtain ⟨keys, hstores, _⟩ := hstored
      exact absurd hstores (Trie.not_stores_empty keys)

namespace Index

variable {config : Config} {index : Index α} {family : Family order} {elements : List α}

namespace Sound

/-- Stored under the same classes is stored in agreement with the canonical form. -/
theorem exists_stored_iff (hsound : Sound order config index) {set : Canonical α}
    (hpresents : set.Presents order elements) :
    (∃ stored, index.trie.Stores stored ∧ order.classes stored = order.classes elements) ↔
      ∃ stored, index.trie.Stores stored ∧ order.Agree stored set.elements := by
  rw [← hpresents.classes_eq]
  constructor
  · intro hstored
    obtain ⟨stored, hstores, hclasses⟩ := hstored
    have hascends : order.Ascends stored :=
      hsound.sorted.stores_ascends hsound.shaped hstores
    exact ⟨stored, hstores, hascends.agree_of_classes_eq hpresents.ascends hclasses⟩
  · intro hstored
    obtain ⟨stored, hstores, hagree⟩ := hstored
    exact ⟨stored, hstores, Order.classes_eq_of_agree hagree⟩

/-- A class set is a member exactly when some stored sequence agrees with its
ascending sequence. -/
theorem mem_family_iff (hsound : Sound order config index)
    (hrepresents : Represents index.trie family) {set : Canonical α}
    (hpresents : set.Presents order elements) :
    order.classes elements ∈ family ↔
      ∃ stored, index.trie.Stores stored ∧ order.Agree stored set.elements := by
  rw [hrepresents.mem_iff, hsound.exists_stored_iff hpresents]

theorem bounds_of_mem_family (hsound : Sound order config index)
    (hrepresents : Represents index.trie family)
    (hmem : order.classes elements ∈ family) :
    elements ≠ [] ∧ (order.classes elements).card ≤ config.maxSetSize.toNat := by
  obtain ⟨stored, hstores, hclasses⟩ := (hrepresents.mem_iff _).mp hmem
  have hascends : order.Ascends stored :=
    hsound.sorted.stores_ascends hsound.shaped hstores
  constructor
  · intro hempty
    rw [hempty, Order.classes_nil, Order.classes_eq_empty_iff] at hclasses
    exact hsound.shaped.stores_ne_nil hstores hclasses
  · rw [← hclasses, hascends.card_classes]
    exact hsound.within stored hstores

/-- Both sides refuse the same lists, for the same reason. -/
theorem family_add_of_refused (hsound : Sound order config index)
    (hrepresents : Represents index.trie family) {reason : Refusal}
    (hrefused : index.admissible elements = .error reason) :
    family.add config.maxSetSize.toNat elements = (.error reason, family) := by
  obtain rfl := hsound.order_eq
  obtain rfl := hsound.config_eq
  have hbounds : index.order.classes elements ∈ family → _ :=
    hsound.bounds_of_mem_family hrepresents
  unfold Family.add
  by_cases hne : elements = []
  · subst hne
    have hmissing : index.order.classes [] ∉ family := fun hmem => (hbounds hmem).1 rfl
    rw [admissible_nil] at hrefused
    cases hrefused
    simp only [if_neg hmissing, if_true]
  · by_cases hlarge : index.config.maxSetSize.toNat < (index.order.classes elements).card
    · have hmissing : index.order.classes elements ∉ family :=
        fun hmem => absurd (hbounds hmem).2 (Nat.not_le_of_lt hlarge)
      rw [admissible_of_large hne hlarge] at hrefused
      cases hrefused
      simp only [if_neg hmissing, if_neg hne, if_pos hlarge]
    · obtain ⟨set, hset, _⟩ := admissible_of_fits hne (Nat.le_of_not_lt hlarge)
      rw [hset] at hrefused
      contradiction

/-- An insertion adds one class set to those that are stored. -/
theorem mem_inserted_iff (hrepresents : Represents index.trie family)
    {set : Canonical α} {newer : Trie α} {actual : List α} {insertion : Trie.Insertion}
    (hpresents : set.Presents order elements)
    (hinserts : Trie.Inserts order index.trie newer set.elements actual insertion)
    (other : Finset order.Class) :
    (∃ keys, newer.Stores keys ∧ order.classes keys = other) ↔
      other = order.classes elements ∨ other ∈ family := by
  have hactual : order.classes actual = order.classes elements :=
    (Order.classes_eq_of_agree hinserts.agree).trans hpresents.classes_eq
  rw [hrepresents.mem_iff]
  simp only [hinserts.stores_iff]
  constructor
  · intro hlater
    obtain ⟨keys, hstores, hclasses⟩ := hlater
    rcases hstores with hold | rfl
    · exact Or.inr ⟨keys, hold, hclasses⟩
    · exact Or.inl (hclasses.symm.trans hactual)
  · intro heither
    rcases heither with rfl | ⟨keys, hstores, hclasses⟩
    · exact ⟨actual, Or.inr rfl, hactual⟩
    · exact ⟨keys, Or.inl hstores, hclasses⟩

theorem family_add_of_inserted (hsound : Sound order config index)
    (hrepresents : Represents index.trie family) {set : Canonical α} {newer : Trie α}
    {actual : List α} {insertion : Trie.Insertion}
    (hpresents : set.Presents order elements)
    (hsize : set.size ≤ config.maxSetSize.toNat)
    (hinserts : Trie.Inserts order index.trie newer set.elements actual insertion) :
    (family.add config.maxSetSize.toNat elements).1 = .ok insertion.inserted ∧
      Represents newer (family.add config.maxSetSize.toNat elements).2 := by
  have hinserted : insertion.inserted = true ↔ order.classes elements ∉ family := by
    rw [hinserts.inserted_iff, hsound.mem_family_iff hrepresents hpresents]
  have hstored := hinserts.stored_eq
  have hmember := mem_inserted_iff hrepresents hpresents hinserts
  rw [hpresents.size_eq] at hsize
  unfold Family.add
  by_cases hmem : order.classes elements ∈ family
  · have hfalse : insertion.inserted = false :=
      Bool.eq_false_iff.mpr fun htrue => hinserted.mp htrue hmem
    simp only [if_pos hmem, hfalse, true_and]
    constructor
    · rw [hstored, hfalse, hrepresents.stored_eq]
      rfl
    · intro other
      rw [hmember]
      constructor
      · exact Or.inr
      · exact fun hor => hor.elim (fun heq => heq ▸ hmem) fun hold => hold
  · have htrue : insertion.inserted = true := hinserted.mpr hmem
    simp only [if_neg hmem, if_neg hpresents.ne_nil, if_neg (Nat.not_lt_of_le hsize),
      htrue, true_and]
    constructor
    · rw [hstored, htrue, hrepresents.stored_eq, Finset.card_insert_of_notMem hmem]
      rfl
    · intro other
      rw [hmember, Finset.mem_insert]

/-- One addition does to the index what it does to the family, with the same answer. -/
theorem addition_simulates (hsound : Sound order config index)
    (hrepresents : Represents index.trie family) (elements : List α) :
    (index.addition elements).answer =
        (family.add config.maxSetSize.toNat elements).1.mapError .refused ∧
      Represents (index.addition elements).trie
        (family.add config.maxSetSize.toNat elements).2 := by
  rcases hsound.addition_cases elements with
    ⟨reason, hrefused, haddition⟩ |
      ⟨set, insertion, newer, actual, _, hpresents, hsize, hinserts, haddition⟩
  · rw [haddition, hsound.family_add_of_refused hrepresents hrefused]
    exact ⟨rfl, hrepresents⟩
  · obtain ⟨hanswer, hnewer⟩ :=
      hsound.family_add_of_inserted hrepresents hpresents hsize hinserts
    rw [haddition, hanswer]
    exact ⟨rfl, hnewer⟩

theorem serve_represents (hsound : Sound order config index)
    (hrepresents : Represents index.trie family) (took : Elapsed) (request : Request α) :
    Represents (index.serve took request).index.trie
      (family.serve config.maxSetSize.toNat request) := by
  rw [trie_serve]
  cases request with
  | add elements => exact (hsound.addition_simulates hrepresents elements).2
  | contains | subsetsOf | supersetsOf | size | isEmpty => exact hrepresents

theorem after_represents (hsound : Sound order config index)
    (hrepresents : Represents index.trie family) (calls : List (Call α)) :
    Represents (index.after calls).trie
      (family.after config.maxSetSize.toNat (calls.map Prod.snd)) := by
  induction calls generalizing index family with
  | nil => exact hrepresents
  | cons call calls induction =>
      exact induction (hsound.serve call.1 call.2)
        (hsound.serve_represents hrepresents call.1 call.2)

/-! What the index says of the family it represents. -/

/-- A set is held exactly when it is stored under the same classes. -/
theorem holds_stored_iff (hsound : Sound order config index) (elements : List α) :
    ∃ held, index.holds elements = .ok held ∧ (held = true ↔
      ∃ stored, index.trie.Stores stored ∧
        order.classes stored = order.classes elements) := by
  obtain rfl := hsound.order_eq
  by_cases hne : elements = []
  · subst hne
    refine ⟨false, rfl, iff_of_false Bool.false_ne_true ?_⟩
    rintro ⟨stored, hstores, hclasses⟩
    rw [Order.classes_nil, Order.classes_eq_empty_iff] at hclasses
    exact hsound.shaped.stores_ne_nil hstores hclasses
  · obtain ⟨set, hset, hpresents⟩ := Canonical.ofList?_presents index.order hne
    obtain ⟨held, hheld, hiff⟩ := hsound.sorted.holds_iff hsound.shaped set.elements
    refine ⟨held, ?_, hiff.trans (hsound.exists_stored_iff hpresents).symm⟩
    unfold holds
    rw [hset]
    exact hheld

theorem holds_iff (hsound : Sound order config index)
    (hrepresents : Represents index.trie family) (elements : List α) :
    ∃ held, index.holds elements = .ok held ∧ (held = true ↔ family.contains elements) := by
  obtain ⟨held, hholds, hiff⟩ := hsound.holds_stored_iff elements
  refine ⟨held, hholds, ?_⟩
  rw [hiff, ← hrepresents.mem_iff, Family.contains]
  exact ⟨fun hmem => ⟨(hsound.bounds_of_mem_family hrepresents hmem).1, hmem⟩, And.right⟩

theorem contains_answer (hsound : Sound order config index)
    (hrepresents : Represents index.trie family) (took : Elapsed) (elements : List α) :
    ∃ held, (index.contains took elements).answer = .ok held ∧
      (held = true ↔ family.contains elements) := by
  obtain ⟨held, hholds, hiff⟩ := hsound.holds_iff hrepresents elements
  refine ⟨held, ?_, hiff⟩
  unfold Index.contains lookup settle
  rw [hholds]
  rfl

theorem exists_sets (hsound : Sound order config index)
    (hrepresents : Represents index.trie family) :
    ∃ stored, index.sets = .ok stored ∧ (∀ keys ∈ stored, order.Ascends keys) ∧
      (stored.map order.classes).Nodup ∧
      (stored.map order.classes).toFinset = family := by
  have hmem : ∀ keys, keys ∈ index.trie.storedBelow Trie.root ↔ index.trie.Stores keys :=
    fun _ => hsound.shaped.mem_storedBelow_root_iff
  have hascends : ∀ keys ∈ index.trie.storedBelow Trie.root, order.Ascends keys :=
    fun keys hkeys => hsound.sorted.stores_ascends hsound.shaped ((hmem keys).mp hkeys)
  refine ⟨_, hsound.shaped.sequences_eq, hascends, ?_, ?_⟩
  · rw [List.Nodup, List.pairwise_map]
    refine (hsound.sorted.storedBelow_pairwise hsound.shaped
      hsound.shaped.size_pos).imp_of_mem ?_
    intro left right hleft hright hdiffer hclasses
    exact hdiffer
      ((hascends left hleft).agree_of_classes_eq (hascends right hright) hclasses)
  · ext set
    simp only [List.mem_toFinset, List.mem_map, hmem, hrepresents.mem_iff]

end Sound

/-! The index as seen through its operations, against a family. -/

structure Simulates (index : Index α) (limit : Nat) (family : Family order) : Prop where
  add_answer : ∀ took elements, (index.add took elements).answer =
    (family.add limit elements).1.mapError .refused
  contains_answer : ∀ took elements, ∃ held,
    (index.contains took elements).answer = .ok held ∧
      (held = true ↔ family.contains elements)
  size_eq : index.size = family.card
  isEmpty_iff : index.isEmpty = true ↔ family = ∅
  lists : ∃ stored, index.sets = .ok stored ∧ (∀ keys ∈ stored, order.Ascends keys) ∧
    (stored.map order.classes).Nodup ∧ (stored.map order.classes).toFinset = family

theorem Sound.simulates (hsound : Sound order config index)
    (hrepresents : Represents index.trie family) :
    index.Simulates config.maxSetSize.toNat family where
  add_answer := fun _ elements => (hsound.addition_simulates hrepresents elements).1
  contains_answer := hsound.contains_answer hrepresents
  size_eq := hrepresents.stored_eq
  isEmpty_iff := by
    rw [isEmpty, size, hrepresents.stored_eq, beq_iff_eq, Finset.card_eq_zero]
  lists := hsound.exists_sets hrepresents

theorem run_represents (order : Order α) [Std.TransCmp order] (config : Config)
    (recorder : Recorder) (calls : List (Call α)) :
    Represents (run order config recorder calls).trie
      (Family.after config.maxSetSize.toNat (∅ : Family order) (calls.map Prod.snd)) := by
  have hempty : Represents ((Index.build order config).withRecorder recorder).trie
      (∅ : Family order) := represents_empty
  exact (Sound.build order config recorder).after_represents hempty calls

/-- After any run the index shows the family that the same requests make of an
empty one. -/
theorem run_simulates (order : Order α) [Std.TransCmp order] (config : Config)
    (recorder : Recorder) (calls : List (Call α)) :
    (run order config recorder calls).Simulates config.maxSetSize.toNat
      (Family.after config.maxSetSize.toNat (∅ : Family order) (calls.map Prod.snd)) := by
  have hsound := Sound.build order config recorder
  have hrepresents : Represents
      ((Index.build order config).withRecorder recorder).trie (∅ : Family order) :=
    represents_empty
  exact (hsound.after calls).simulates (hsound.after_represents hrepresents calls)

theorem run_simulates_digitCalls :
    (Family.after Config.default.maxSetSize.toNat (∅ : Family Order.byLastDigit)
        (digitCalls.map Prod.snd)).card = 2 ∧
      (run Order.byLastDigit .default .silent digitCalls).Simulates
        Config.default.maxSetSize.toNat
        (Family.after Config.default.maxSetSize.toNat (∅ : Family Order.byLastDigit)
          (digitCalls.map Prod.snd)) :=
  ⟨by decide +kernel, run_simulates Order.byLastDigit .default .silent digitCalls⟩

end Index

end Containment
