import Containment.Index.Request
import Containment.Proofs.Canonical
import Containment.Proofs.Trie.Stored

namespace Containment

variable {α : Type} {order : Order α} {config : Config} {index : Index α}

/-! An addition is refused before it touches the trie, or inserts the canonical form. -/

namespace Outcome

def refused (trie : Trie α) (elements : List α) (reason : Refusal) : Outcome α Bool :=
  { trie
    answer := .error (.refused reason)
    events := [.rejected elements.length reason]
    activity := some .rejected }

def inserted (set : Canonical α) (newer : Trie α) (insertion : Trie.Insertion) :
    Outcome α Bool :=
  { trie := newer
    answer := .ok insertion.inserted
    events := Index.extensionEvents set insertion ++ [.added set.size insertion.inserted]
    activity := some (.added insertion.inserted insertion.created) }

end Outcome

namespace Index

/-! Runs: requests served one after another, each with the time it takes. -/

abbrev Call (α : Type) := Elapsed × Request α

def after (index : Index α) (calls : List (Call α)) : Index α :=
  calls.foldl (fun index call => (index.serve call.1 call.2).index) index

def run (order : Order α) (config : Config) (recorder : Recorder)
    (calls : List (Call α)) : Index α :=
  ((Index.build order config).withRecorder recorder).after calls

@[simp] theorem after_nil (index : Index α) : index.after [] = index := rfl

@[simp] theorem after_cons (index : Index α) (call : Call α) (calls : List (Call α)) :
    index.after (call :: calls) = (index.serve call.1 call.2).index.after calls := rfl

theorem after_append (index : Index α) (front back : List (Call α)) :
    index.after (front ++ back) = (index.after front).after back :=
  List.foldl_append

/-- A run in which elements with the same last digit are one. -/
def digitCalls : List (Call Int) :=
  [(.zero, .add [25, 11, 13, 21]), (.zero, .add []), (.zero, .add [1]),
    (.zero, .contains [5, 3, 1]), (.zero, .add [35, 23, 41, 45])]

/-! Requests leave the order and the configuration alone, and only additions touch
the trie. -/

@[simp] theorem order_serve (index : Index α) (took : Elapsed) (request : Request α) :
    (index.serve took request).index.order = index.order := by
  cases request <;> rfl

@[simp] theorem config_serve (index : Index α) (took : Elapsed) (request : Request α) :
    (index.serve took request).index.config = index.config := by
  cases request <;> rfl

@[simp] theorem trie_ofLook {β γ : Type} (trie : Trie α) (result : Except Fault γ)
    (answer : γ → β) (event : γ → Event) (activity : γ → Activity) :
    (Outcome.ofLook trie result answer event activity).trie = trie := by
  cases result <;> rfl

theorem trie_serve (index : Index α) (took : Elapsed) (request : Request α) :
    (index.serve took request).index.trie =
      match request with
      | .add elements => (index.addition elements).trie
      | _ => index.trie := by
  cases request with
  | add elements => rfl
  | contains elements => exact trie_ofLook _ _ _ _ _
  | subsetsOf elements => exact trie_ofLook _ _ _ _ _
  | supersetsOf elements => exact trie_ofLook _ _ _ _ _
  | size => rfl
  | isEmpty => rfl

/-! Which lists may be stored. -/

section Admissible

variable {elements : List α}

theorem admissible_nil (index : Index α) : index.admissible [] = .error .emptySet := rfl

variable [Std.TransCmp index.order]

theorem admissible_of_large (hne : elements ≠ [])
    (hlarge : index.config.maxSetSize.toNat < (index.order.classes elements).card) :
    index.admissible elements = .error (.setTooLarge (index.order.classes elements).card
      index.config.maxSetSize.toNat) := by
  obtain ⟨set, hset, hpresents⟩ := Canonical.ofList?_presents index.order hne
  rw [← hpresents.size_eq] at hlarge ⊢
  unfold admissible Canonical.forInsertion
  simp only [hset, Except.ok_bind, if_pos hlarge]
  rfl

theorem admissible_of_fits (hne : elements ≠ [])
    (hfits : (index.order.classes elements).card ≤ index.config.maxSetSize.toNat) :
    ∃ set, index.admissible elements = .ok set ∧ set.Presents index.order elements := by
  obtain ⟨set, hset, hpresents⟩ := Canonical.ofList?_presents index.order hne
  refine ⟨set, ?_, hpresents⟩
  rw [← hpresents.size_eq] at hfits
  unfold admissible Canonical.forInsertion
  simp only [hset, Except.ok_bind, if_neg (Nat.not_lt_of_le hfits)]
  rfl

theorem fits_of_admissible {set : Canonical α} (hset : index.admissible elements = .ok set) :
    elements ≠ [] ∧
      (index.order.classes elements).card ≤ index.config.maxSetSize.toNat := by
  by_cases hne : elements = []
  · subst hne
    contradiction
  · refine ⟨hne, Nat.le_of_not_lt ?_⟩
    intro hlarge
    rw [admissible_of_large hne hlarge] at hset
    contradiction

end Admissible

theorem addition_of_refused {elements : List α} {reason : Refusal}
    (hrefused : index.admissible elements = .error reason) :
    index.addition elements = .refused index.trie elements reason := by
  unfold addition
  rw [hrefused]
  rfl

theorem ofList?_of_admissible {elements : List α} {set : Canonical α}
    (hset : index.admissible elements = .ok set) :
    Canonical.ofList? index.order elements = some set := by
  unfold admissible Canonical.forInsertion at hset
  cases hform : Canonical.ofList? index.order elements with
  | none =>
      rw [hform] at hset
      cases hset
  | some form =>
      simp only [hform, Except.ok_bind] at hset
      split at hset
      · cases hset
      · cases hset
        rfl

/-- An addition that is answered has inserted the canonical form. -/
theorem exists_insertion {elements : List α} {inserted : Bool}
    (hanswer : (index.addition elements).answer = .ok inserted) :
    ∃ set insertion newer, Canonical.ofList? index.order elements = some set ∧
      index.trie.insertPath index.order set.elements = (.ok insertion, newer) ∧
      index.addition elements = .inserted set newer insertion := by
  unfold addition at hanswer ⊢
  cases hadmissible : index.admissible elements with
  | error reason =>
      rw [hadmissible] at hanswer
      cases hanswer
  | ok set =>
      simp only [hadmissible] at hanswer
      cases hinsert : index.trie.insertPath index.order set.elements with
      | mk outcome newer =>
          cases outcome with
          | error fault =>
              rw [hinsert] at hanswer
              cases hanswer
          | ok insertion =>
              exact ⟨set, insertion, newer, ofList?_of_admissible hadmissible,
                hinsert, by simp only [hinsert]; rfl⟩

/-! What holds of an index throughout a run. -/

structure Sound (order : Order α) (config : Config) (index : Index α) : Prop where
  order_eq : index.order = order
  config_eq : index.config = config
  shaped : index.trie.Shaped
  sorted : Trie.Sorted order index.trie
  trimmed : index.trie.Trimmed Trie.root
  within : ∀ keys, index.trie.Stores keys → keys.length ≤ config.maxSetSize.toNat

namespace Sound

theorem build (order : Order α) (config : Config) (recorder : Recorder) :
    Sound order config ((Index.build order config).withRecorder recorder) where
  order_eq := rfl
  config_eq := rfl
  shaped := Trie.shaped_empty
  sorted := Trie.sorted_empty
  trimmed := Trie.trimmed_empty Trie.root
  within := fun keys hstores => absurd hstores (Trie.not_stores_empty keys)

theorem of_trie (hsound : Sound order config index) {later : Index α}
    (horder : later.order = index.order) (hconfig : later.config = index.config)
    (htrie : later.trie = index.trie) : Sound order config later where
  order_eq := horder.trans hsound.order_eq
  config_eq := hconfig.trans hsound.config_eq
  shaped := htrie ▸ hsound.shaped
  sorted := htrie ▸ hsound.sorted
  trimmed := htrie ▸ hsound.trimmed
  within := htrie ▸ hsound.within

variable [Std.TransCmp order]

theorem addition_of_admissible (hsound : Sound order config index) {elements : List α}
    {set : Canonical α} (hset : index.admissible elements = .ok set)
    (hpresents : set.Presents order elements) :
    ∃ insertion newer actual,
      Trie.Inserts order index.trie newer set.elements actual insertion ∧
      index.addition elements = .inserted set newer insertion := by
  obtain ⟨insertion, newer, actual, hinsert, hinserts⟩ :=
    hsound.sorted.insertPath hsound.shaped set.nonempty hpresents.ascends
  refine ⟨insertion, newer, actual, hinserts, ?_⟩
  unfold addition
  rw [hset]
  simp only [hsound.order_eq, hinsert]
  rfl

/-- The two ways an addition can go. -/
theorem addition_cases (hsound : Sound order config index) (elements : List α) :
    (∃ reason, index.admissible elements = .error reason ∧
      index.addition elements = .refused index.trie elements reason) ∨
    ∃ set insertion newer actual,
      index.admissible elements = .ok set ∧ set.Presents order elements ∧
      set.size ≤ config.maxSetSize.toNat ∧
      Trie.Inserts order index.trie newer set.elements actual insertion ∧
      index.addition elements = .inserted set newer insertion := by
  obtain rfl := hsound.order_eq
  obtain rfl := hsound.config_eq
  cases hadmissible : index.admissible elements with
  | error reason => exact Or.inl ⟨reason, rfl, addition_of_refused hadmissible⟩
  | ok set =>
      obtain ⟨hne, hfits⟩ := fits_of_admissible hadmissible
      obtain ⟨found, hfound, hpresents⟩ := admissible_of_fits hne hfits
      rw [hadmissible] at hfound
      cases hfound
      obtain ⟨insertion, newer, actual, hinserts, haddition⟩ :=
        hsound.addition_of_admissible hadmissible hpresents
      rw [← hpresents.size_eq] at hfits
      exact Or.inr ⟨set, insertion, newer, actual, rfl, hpresents, hfits, hinserts,
        haddition⟩

/-- An addition is refused and leaves the trie alone, or it is answered. -/
theorem addition_answer (hsound : Sound order config index) (elements : List α) :
    (∃ reason, index.addition elements = .refused index.trie elements reason) ∨
      ∃ inserted, (index.addition elements).answer = .ok inserted := by
  rcases hsound.addition_cases elements with
    ⟨reason, _, haddition⟩ | ⟨_, insertion, _, _, _, _, _, _, haddition⟩
  · exact Or.inl ⟨reason, haddition⟩
  · exact Or.inr ⟨insertion.inserted, by rw [haddition]; rfl⟩

theorem exists_inserts (hsound : Sound order config index) {elements : List α}
    {inserted : Bool} (hanswer : (index.addition elements).answer = .ok inserted) :
    ∃ set insertion newer actual, Canonical.ofList? order elements = some set ∧
      set.Presents order elements ∧
      index.trie.insertPath order set.elements = (.ok insertion, newer) ∧
      Trie.Inserts order index.trie newer set.elements actual insertion ∧
      index.addition elements = .inserted set newer insertion := by
  obtain ⟨set, insertion, newer, hset, hinsert, haddition⟩ := exists_insertion hanswer
  rw [hsound.order_eq] at hset hinsert
  have hpresents := Canonical.presents_of_ofList? hset
  obtain ⟨found, later, actual, hfound, hinserts⟩ :=
    hsound.sorted.insertPath hsound.shaped set.nonempty hpresents.ascends
  rw [hinsert] at hfound
  cases hfound
  exact ⟨set, insertion, newer, actual, hset, hpresents, hinsert, hinserts, haddition⟩

theorem serve (hsound : Sound order config index) (took : Elapsed)
    (request : Request α) : Sound order config (index.serve took request).index := by
  have horder := order_serve index took request
  have hconfig := config_serve index took request
  have htrie := trie_serve index took request
  cases request with
  | contains | subsetsOf | supersetsOf | size | isEmpty =>
      exact hsound.of_trie horder hconfig htrie
  | add elements =>
      rcases hsound.addition_cases elements with
        ⟨reason, _, haddition⟩ |
          ⟨set, insertion, newer, actual, _, hpresents, hsize, hinserts, haddition⟩
      · simp only [haddition] at htrie
        exact hsound.of_trie horder hconfig htrie
      · simp only [haddition] at htrie
        have hnewer : (index.serve took (.add elements)).index.trie = newer := htrie
        refine
          { order_eq := horder.trans hsound.order_eq
            config_eq := hconfig.trans hsound.config_eq
            shaped := hnewer ▸ hinserts.shaped
            sorted := hnewer ▸ hinserts.sorted
            trimmed := hnewer ▸ hinserts.trimmed hsound.trimmed
            within := ?_ }
        intro keys hstores
        rw [hnewer, hinserts.stores_iff] at hstores
        rcases hstores with hstores | rfl
        · exact hsound.within keys hstores
        · rw [hinserts.agree.length_eq]
          exact hsize

theorem after (hsound : Sound order config index) (calls : List (Call α)) :
    Sound order config (index.after calls) := by
  induction calls generalizing index with
  | nil => exact hsound
  | cons call calls induction => exact induction (hsound.serve call.1 call.2)

/-- What is stored stays stored. -/
theorem stores_serve (hsound : Sound order config index) (took : Elapsed)
    (request : Request α) {keys : List α} (hstores : index.trie.Stores keys) :
    (index.serve took request).index.trie.Stores keys := by
  rw [trie_serve]
  cases request with
  | contains | subsetsOf | supersetsOf | size | isEmpty => exact hstores
  | add elements =>
      rcases hsound.addition_answer elements with ⟨reason, haddition⟩ | ⟨inserted, hanswer⟩
      · simp only [haddition]
        exact hstores
      · obtain ⟨set, insertion, newer, actual, _, _, _, hinserts, haddition⟩ :=
          hsound.exists_inserts hanswer
        simp only [haddition]
        exact (hinserts.stores_iff keys).mpr (Or.inl hstores)

theorem stores_after (hsound : Sound order config index) (calls : List (Call α))
    {keys : List α} (hstores : index.trie.Stores keys) :
    (index.after calls).trie.Stores keys := by
  induction calls generalizing index with
  | nil => exact hstores
  | cons call calls induction =>
      exact induction (hsound.serve call.1 call.2) (hsound.stores_serve call.1 call.2 hstores)

end Sound

theorem run_sound (order : Order α) [Std.TransCmp order] (config : Config)
    (recorder : Recorder) (calls : List (Call α)) :
    Sound order config (run order config recorder calls) :=
  (Sound.build order config recorder).after calls

end Index

end Containment
