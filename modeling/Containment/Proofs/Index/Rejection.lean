import Containment.Proofs.Index.Operation

namespace Containment.Index

variable {α : Type} {order : Order α} {config : Config} {index : Index α}

/-! Which additions are rejected, and with what. Only the number of classes counts, not
the length of the list; and what is rejected has not touched the trie. -/

structure Rejects (order : Order α) [Std.TransCmp order] (limit : Nat)
    (index : Index α) : Prop where
  empty_iff : ∀ took elements,
    (∃ reason, (index.add took elements).answer =
      .error (.refused (.invalidArgument reason))) ↔ elements = []
  large_iff : ∀ took elements size bound,
    (index.add took elements).answer = .error (.refused (.setTooLarge size bound)) ↔
      limit < (order.classes elements).card ∧
        size = (order.classes elements).card ∧ bound = limit
  no_other : ∀ took elements failure, (index.add took elements).answer = .error failure →
    failure = .refused .emptySet ∨ ∃ size bound, failure = .refused (.setTooLarge size bound)
  untouched : ∀ took elements failure, (index.add took elements).answer = .error failure →
    (index.add took elements).index.trie = index.trie

namespace Sound

variable [Std.TransCmp order]

theorem admissible_eq_error_iff (hsound : Sound order config index) (took : Elapsed)
    {elements : List α} {reason : Refusal} :
    index.admissible elements = .error reason ↔
      Refused order config.maxSetSize.toNat (.serve took (.add elements))
        (.refused reason) := by
  refine ⟨hsound.refused took, ?_⟩
  obtain rfl := hsound.order_eq
  obtain rfl := hsound.config_eq
  intro hrefused
  cases hrefused with
  | empty => exact admissible_nil index
  | large _ _ hlarge =>
      refine admissible_of_large ?_ hlarge
      rintro rfl
      exact Nat.not_lt_zero _ hlarge

/-- Whether an addition fails, and with what, does not depend on the trie. -/
theorem add_eq_error_iff (hsound : Sound order config index) (took : Elapsed)
    (elements : List α) (failure : Failure) :
    (index.add took elements).answer = .error failure ↔
      Refused order config.maxSetSize.toNat (.serve took (.add elements)) failure := by
  have hreason : Refused order config.maxSetSize.toNat (.serve took (.add elements)) failure →
      ∃ reason, failure = .refused reason ∧ index.admissible elements = .error reason := by
    intro hfailure
    cases hfailure with
    | empty => exact ⟨_, rfl, (hsound.admissible_eq_error_iff took).mpr (.empty took)⟩
    | large _ _ hlarge =>
        exact ⟨_, rfl, (hsound.admissible_eq_error_iff took).mpr (.large took _ hlarge)⟩
  rw [add, settle]
  rcases hsound.addition_cases elements with
    ⟨reason, hrefused, haddition⟩ | ⟨_, _, _, _, hset, _, _, _, haddition⟩
  · rw [haddition]
    constructor
    · rintro ⟨rfl⟩
      exact hsound.refused took hrefused
    · intro hfailure
      obtain ⟨other, rfl, hother⟩ := hreason hfailure
      rw [hrefused] at hother
      cases hother
      rfl
  · rw [haddition]
    constructor
    · rintro ⟨⟩
    · intro hfailure
      obtain ⟨_, _, hother⟩ := hreason hfailure
      rw [hset] at hother
      cases hother

theorem exists_recorder_of_rejected (hsound : Sound order config index) {took : Elapsed}
    {elements : List α} {failure : Failure}
    (hfails : (index.add took elements).answer = .error failure) :
    ∃ recorder, (index.add took elements).index = index.withRecorder recorder := by
  rcases hsound.addition_answer elements with ⟨reason, haddition⟩ | ⟨inserted, hanswer⟩
  · rw [add, settle, haddition]
    exact ⟨_, rfl⟩
  · rw [add, settle, hanswer] at hfails
    cases hfails

theorem rejects (hsound : Sound order config index) :
    Rejects order config.maxSetSize.toNat index where
  empty_iff := by
    intro took elements
    simp only [hsound.add_eq_error_iff]
    constructor
    · rintro ⟨reason, hrefused⟩
      cases hrefused
      rfl
    · rintro rfl
      exact ⟨_, .empty took⟩
  large_iff := by
    intro took elements size bound
    rw [hsound.add_eq_error_iff]
    constructor
    · intro hrefused
      cases hrefused with
      | large _ _ hlarge => exact ⟨hlarge, rfl, rfl⟩
    · rintro ⟨hlarge, rfl, rfl⟩
      exact .large took elements hlarge
  no_other := by
    intro took elements failure hfails
    cases (hsound.add_eq_error_iff took elements failure).mp hfails with
    | empty => exact Or.inl rfl
    | large => exact Or.inr ⟨_, _, rfl⟩
  untouched := by
    intro took elements failure hfails
    obtain ⟨recorder, hindex⟩ := hsound.exists_recorder_of_rejected hfails
    rw [hindex]
    rfl

end Sound

/-! A run with additions put into it. What becomes of each step stands in a transcript. -/

structure Step (α : Type) where
  operation : Operation α
  /-- The step belongs to the run and was not put into it. -/
  own : Bool

structure Entry (α : Type) where
  step : Step α
  report : Except Failure (Report α)

def Entry.own (entry : Entry α) : Bool :=
  entry.step.own

/-- The entry is that of an addition that failed. -/
def Entry.rejected (entry : Entry α) : Bool :=
  match entry.step.operation, entry.report with
  | .serve _ (.add _), .error _ => true
  | _, _ => false

def transcript (index : Index α) : List (Step α) → List (Entry α)
  | [] => []
  | step :: steps =>
      { step, report := (index.operate step.operation).2 } ::
        (index.operate step.operation).1.transcript steps

/-- The trie after the last step. -/
def trieAfter (index : Index α) (steps : List (Step α)) : Trie α :=
  (index.operated (steps.map Step.operation)).trie

theorem transcript_cons (index : Index α) (step : Step α) (steps : List (Step α)) :
    index.transcript (step :: steps) =
      { step, report := (index.operate step.operation).2 } ::
        (index.operate step.operation).1.transcript steps := rfl

theorem trieAfter_cons (index : Index α) (step : Step α) (steps : List (Step α)) :
    index.trieAfter (step :: steps) = (index.operate step.operation).1.trieAfter steps := rfl

/-- The recorder has no part in what is answered. -/
theorem operate_withRecorder (index : Index α) (recorder : Recorder)
    (operation : Operation α) :
    ∃ later, (index.withRecorder recorder).operate operation =
      ((index.operate operation).1.withRecorder later, (index.operate operation).2) := by
  cases operation with
  | serve took request =>
      have houtcome : (index.withRecorder recorder).outcome request = index.outcome request := by
        cases request <;> rfl
      rw [operate, operate, serve_eq, serve_eq, houtcome]
      exact ⟨_, rfl⟩
  | sets | nodeCount | dump | check => exact ⟨recorder, rfl⟩

theorem Sound.withRecorder (hsound : Sound order config index) (recorder : Recorder) :
    Sound order config (index.withRecorder recorder) :=
  hsound.of_trie rfl rfl rfl

variable [Std.TransCmp order]

theorem Sound.exists_recorder_of_entry (hsound : Sound order config index) {step : Step α}
    (hrejected : Entry.rejected { step, report := (index.operate step.operation).2 } = true) :
    ∃ recorder, (index.operate step.operation).1 = index.withRecorder recorder := by
  obtain ⟨operation, own⟩ := step
  cases operation with
  | serve took request =>
      cases request with
      | add elements =>
          cases hanswer : (index.add took elements).answer with
          | error failure => exact hsound.exists_recorder_of_rejected hanswer
          | ok inserted =>
              have hreport : (index.operate (.serve took (.add elements))).2 =
                  ((index.add took elements).answer.map .flag).map .reply := rfl
              rw [hreport, hanswer] at hrejected
              contradiction
      | contains | subsetsOf | supersetsOf | size | isEmpty =>
          simp [Entry.rejected] at hrejected
  | sets | nodeCount | dump | check => simp [Entry.rejected] at hrejected

/-- Step by step: what is rejected changes only the recorder, and no report depends on it. -/
theorem Sound.transcript_filter (hsound : Sound order config index) (recorder : Recorder)
    {steps : List (Step α)}
    (hrejected : ∀ entry ∈ (index.withRecorder recorder).transcript steps,
      entry.own = false → entry.rejected = true) :
    ((index.withRecorder recorder).transcript steps).filter Entry.own =
        index.transcript (steps.filter Step.own) ∧
      (index.withRecorder recorder).trieAfter steps =
        index.trieAfter (steps.filter Step.own) := by
  induction steps generalizing index recorder with
  | nil => exact ⟨rfl, rfl⟩
  | cons step steps induction =>
      obtain ⟨hfirst, hrest⟩ := List.forall_mem_cons.mp hrejected
      cases hown : step.own with
      | true =>
          obtain ⟨later, hoperate⟩ := operate_withRecorder index recorder step.operation
          rw [hoperate] at hrest
          obtain ⟨hentries, htrie⟩ := induction (hsound.operate step.operation) later hrest
          rw [transcript_cons, trieAfter_cons, hoperate, List.filter_cons_of_pos hown,
            transcript_cons, trieAfter_cons, ← hentries]
          exact ⟨List.filter_cons_of_pos hown, htrie⟩
      | false =>
          obtain ⟨later, hlater⟩ :=
            (hsound.withRecorder recorder).exists_recorder_of_entry (hfirst hown)
          have hsame : ((index.withRecorder recorder).operate step.operation).1 =
              index.withRecorder later := hlater
          rw [hsame] at hrest
          obtain ⟨hentries, htrie⟩ := induction hsound later hrest
          have hstray : ¬ step.own = true := by rw [hown]; exact Bool.false_ne_true
          rw [transcript_cons, trieAfter_cons, hsame, List.filter_cons_of_neg hstray,
            ← hentries]
          exact ⟨List.filter_cons_of_neg hstray, htrie⟩

/-- Whatever an index has been through, an addition is rejected exactly when its set is
empty or has more classes than the limit, and it leaves the trie as it was. Where such
additions are put into a run, the steps of the run itself come to the same. -/
theorem operated_rejects (order : Order α) [Std.TransCmp order] (config : Config)
    (recorder : Recorder) (operations : List (Operation α)) {steps : List (Step α)}
    (hrejected : ∀ entry ∈ (((build order config).withRecorder recorder).operated
      operations).transcript steps, entry.own = false → entry.rejected = true) :
    Rejects order config.maxSetSize.toNat
        (((build order config).withRecorder recorder).operated operations) ∧
      ((((build order config).withRecorder recorder).operated operations).transcript
          steps).filter Entry.own =
        (((build order config).withRecorder recorder).operated operations).transcript
          (steps.filter Step.own) ∧
      (((build order config).withRecorder recorder).operated operations).trieAfter steps =
        (((build order config).withRecorder recorder).operated operations).trieAfter
          (steps.filter Step.own) := by
  have hsound := (Sound.build order config recorder).operated operations
  exact ⟨hsound.rejects, hsound.transcript_filter _ hrejected⟩

/-- With room for sets of two elements: what is put in has no element, or three last
digits. The set with four elements of two last digits is taken. -/
def crowdedSteps : List (Step Int) :=
  [⟨.serve .zero (.add []), false⟩, ⟨.serve .zero (.add [5, 15, 3, 25]), true⟩,
    ⟨.serve .zero (.add [1, 2, 11, 3]), false⟩, ⟨.serve .zero (.add []), true⟩,
    ⟨.serve .zero (.subsetsOf [3, 4, 5]), true⟩, ⟨.dump Int.repr, true⟩, ⟨.sets, true⟩]

theorem operated_rejects_crowdedSteps :
    (∀ entry ∈ (((build Order.byLastDigit pairsOnly).withRecorder .silent).operated
        pairOperations).transcript crowdedSteps, entry.own = false → entry.rejected = true) ∧
      Rejects Order.byLastDigit pairsOnly.maxSetSize.toNat
        (((build Order.byLastDigit pairsOnly).withRecorder .silent).operated
          pairOperations) ∧
      ((((build Order.byLastDigit pairsOnly).withRecorder .silent).operated
          pairOperations).transcript crowdedSteps).filter Entry.own =
        (((build Order.byLastDigit pairsOnly).withRecorder .silent).operated
          pairOperations).transcript (crowdedSteps.filter Step.own) ∧
      (((build Order.byLastDigit pairsOnly).withRecorder .silent).operated
          pairOperations).trieAfter crowdedSteps =
        (((build Order.byLastDigit pairsOnly).withRecorder .silent).operated
          pairOperations).trieAfter (crowdedSteps.filter Step.own) := by
  have hrejected : ∀ entry ∈ (((build Order.byLastDigit pairsOnly).withRecorder
      .silent).operated pairOperations).transcript crowdedSteps,
      entry.own = false → entry.rejected = true := by
    decide +kernel
  exact ⟨hrejected,
    operated_rejects Order.byLastDigit pairsOnly .silent pairOperations hrejected⟩

end Containment.Index
