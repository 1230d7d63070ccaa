import Containment.Proofs.Index.Structure
import Containment.Proofs.Index.Transcript
import Containment.Proofs.Trie.Dump
import Containment.Proofs.Trie.Positions

namespace Containment.Index

variable {α : Type} {order : Order α} {config : Config} {index : Index α}

/-! All that an index can be asked for: its requests, and the looks at it that leave no
trace. -/

inductive Operation (α : Type) where
  | serve (took : Elapsed) (request : Request α)
  | sets
  | nodeCount
  | dump (spell : α → String)
  | check

inductive Report (α : Type) where
  | reply (reply : Reply α)
  | sets (stored : List (List α))
  | nodeCount (count : Nat)
  | dump (text : String)
  | check
deriving DecidableEq

def operate (index : Index α) : Operation α → Index α × Except Failure (Report α)
  | .serve took request =>
      let performed := index.serve took request
      (performed.index, performed.answer.map .reply)
  | .sets => (index, (index.sets.mapError .broken).map .sets)
  | .nodeCount => (index, .ok (.nodeCount index.nodeCount))
  | .dump spell => (index, ((index.dump spell).mapError .broken).map .dump)
  | .check => (index, (index.check.mapError .broken).map fun _ => .check)

/-- The index that one operation after another leaves. -/
def operated (index : Index α) (operations : List (Operation α)) : Index α :=
  operations.foldl (fun index operation => (index.operate operation).1) index

/-- A search that looks at its query, and at the branches of the nodes, by positions. -/
def searchAt (index : Index α) (direction : Direction) (elements : List α) :
    Except Fault (Trie.Findings α) :=
  match Canonical.ofList? index.order elements with
  | none => return .none
  | some set =>
      match direction with
      | .subsets => index.trie.properSubsetsAt index.order set
      | .supersets => index.trie.properSupersetsAt index.order set

theorem searchAt_eq (index : Index α) (direction : Direction) (elements : List α) :
    index.searchAt direction elements = index.search direction elements := by
  rw [searchAt, search]
  cases Canonical.ofList? index.order elements with
  | none => rfl
  | some set =>
      cases direction with
      | subsets => exact Trie.properSubsetsAt_eq index.trie index.order set
      | supersets => exact Trie.properSupersetsAt_eq index.trie index.order set

variable [Std.TransCmp order]

/-- The failures that are answers: an addition of the empty set, and one of more classes
than the limit allows. -/
inductive Refused (order : Order α) [Std.TransCmp order] (limit : Nat) :
    Operation α → Failure → Prop
  | empty (took : Elapsed) :
      Refused order limit (.serve took (.add [])) (.refused .emptySet)
  | large (took : Elapsed) (elements : List α)
      (hlarge : limit < (order.classes elements).card) :
      Refused order limit (.serve took (.add elements))
        (.refused (.setTooLarge (order.classes elements).card limit))

/-- Nothing that an index can be asked for breaks off. It looks at no node that is not
there, at no position beyond a query or beyond the branches of a node, and at no path that
is empty or does not ascend; and it passes a check. -/
structure Unbroken (order : Order α) [Std.TransCmp order] (limit : Nat)
    (index : Index α) : Prop where
  operates : ∀ operation, (∃ report, (index.operate operation).2 = .ok report) ∨
    ∃ failure, (index.operate operation).2 = .error failure ∧
      Refused order limit operation failure
  searches : ∀ direction elements, ∃ findings,
    index.searchAt direction elements = .ok findings ∧
      index.search direction elements = .ok findings
  locates : ∀ (id : NodeId) node key, index.trie.node id = .ok node →
    (node.locate index.order key).Within node.branches

namespace Sound

theorem operate (hsound : Sound order config index) (operation : Operation α) :
    Sound order config (index.operate operation).1 := by
  cases operation with
  | serve took request => exact hsound.serve took request
  | sets | nodeCount | dump | check => exact hsound

theorem operated (hsound : Sound order config index) (operations : List (Operation α)) :
    Sound order config (index.operated operations) := by
  induction operations generalizing index with
  | nil => exact hsound
  | cons operation operations induction => exact induction (hsound.operate operation)

theorem refused (hsound : Sound order config index) (took : Elapsed) {elements : List α}
    {reason : Refusal} (hrefused : index.admissible elements = .error reason) :
    Refused order config.maxSetSize.toNat (.serve took (.add elements)) (.refused reason) := by
  obtain rfl := hsound.order_eq
  obtain rfl := hsound.config_eq
  by_cases hne : elements = []
  · subst hne
    cases hrefused
    exact .empty took
  · by_cases hlarge : index.config.maxSetSize.toNat < (index.order.classes elements).card
    · rw [admissible_of_large hne hlarge] at hrefused
      cases hrefused
      exact .large took elements hlarge
    · obtain ⟨set, hset, _⟩ := admissible_of_fits hne (Nat.le_of_not_lt hlarge)
      rw [hset] at hrefused
      contradiction

theorem operates (hsound : Sound order config index) (operation : Operation α) :
    (∃ report, (index.operate operation).2 = .ok report) ∨
      ∃ failure, (index.operate operation).2 = .error failure ∧
        Refused order config.maxSetSize.toNat operation failure := by
  cases operation with
  | serve took request =>
      have hcourse := hsound.course request
      rw [Index.operate, serve_eq]
      generalize index.outcome request = outcome at hcourse
      cases hcourse with
      | refused hrefused => exact Or.inr ⟨_, rfl, hsound.refused took hrefused⟩
      | inserted | lookedUp | subsetsFound | supersetsFound | size | isEmpty =>
          exact Or.inl ⟨_, rfl⟩
  | sets =>
      rw [Index.operate, Index.sets, hsound.shaped.sequences_eq]
      exact Or.inl ⟨_, rfl⟩
  | nodeCount => exact Or.inl ⟨_, rfl⟩
  | dump spell =>
      rw [Index.operate, Index.dump, hsound.shaped.dump_eq]
      exact Or.inl ⟨_, rfl⟩
  | check =>
      rw [Index.operate, hsound.check_eq]
      exact Or.inl ⟨_, rfl⟩

theorem unbroken (hsound : Sound order config index) :
    Unbroken order config.maxSetSize.toNat index where
  operates := hsound.operates
  searches := by
    intro direction elements
    obtain ⟨findings, hsearch, _⟩ := hsound.search_perm direction elements
    exact ⟨findings, (searchAt_eq index direction elements).trans hsearch, hsearch⟩
  locates := fun _ node _ _ => bisect_within _ node.branches

end Sound

/-- Whatever an index that was made with a valid configuration has been through, nothing
that it is asked for next breaks off. -/
theorem operated_unbroken (order : Order α) [Std.TransCmp order] {config : Config}
    {created : Index α} (hcreated : ofConfig order config = .ok created)
    (recorder : Recorder) (operations : List (Operation α)) :
    Unbroken order config.maxSetSize.toNat
      ((created.withRecorder recorder).operated operations) := by
  obtain ⟨_, _, hbuild⟩ := Except.bind_eq_ok_iff.mp hcreated
  cases hbuild
  exact ((Sound.build order config recorder).operated operations).unbroken

/-- Room for sets of two elements. -/
def pairsOnly : Config :=
  { maxSetSize := 2, initialNodeCapacity := 1 }

def pairOperations : List (Operation Int) :=
  [.serve .zero (.add [21, 3, 11]), .serve .zero (.add [4, 3, 11]), .check,
    .serve .zero (.supersetsOf [33]), .sets, .dump Int.repr]

theorem operated_unbroken_pairOperations :
    ofConfig Order.byLastDigit pairsOnly = .ok (build Order.byLastDigit pairsOnly) ∧
      (((build Order.byLastDigit pairsOnly).withRecorder .silent).operated
        pairOperations).nodeCount = 2 ∧
      Unbroken Order.byLastDigit pairsOnly.maxSetSize.toNat
        (((build Order.byLastDigit pairsOnly).withRecorder .silent).operated
          pairOperations) :=
  ⟨rfl, by decide +kernel, operated_unbroken Order.byLastDigit rfl .silent pairOperations⟩

end Containment.Index
