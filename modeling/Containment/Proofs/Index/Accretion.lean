import Containment.Proofs.Index.Transcript
import Containment.Proofs.Trie.Accretion

namespace Containment.Index

variable {α : Type} {order : Order α} {config : Config} {index later : Index α}

/-! The additions of a run that stored something, each of them told by its answer. -/

def newlyStored : Request α → Except Failure (Reply α) → Option (List α)
  | .add elements, .ok (.flag true) => some elements
  | _, _ => none

def Exchange.stored? (exchange : Exchange α) : Option (List α) :=
  newlyStored exchange.request exchange.answer

/-- What was given for them, in their order. -/
def storedIn (index : Index α) (calls : List (Call α)) : List (List α) :=
  (index.exchanges calls).filterMap Exchange.stored?

theorem storedIn_cons (index : Index α) (call : Call α) (calls : List (Call α)) :
    index.storedIn (call :: calls) =
      (newlyStored call.2 (index.serve call.1 call.2).answer).toList ++
        (index.serve call.1 call.2).index.storedIn calls := by
  rw [storedIn, exchanges, List.filterMap_cons, Exchange.stored?, Exchange.answer]
  cases newlyStored call.2 (index.serve call.1 call.2).answer <;> rfl

/-- A sequence in agreement with the canonical form of a list. -/
def StandsFor (order : Order α) (keys elements : List α) : Prop :=
  order.Agree keys (Canonical.arrange order elements)

/-! What an index shows at one point of a run and at a later one. To each answer come the
fresh sets that belong to it; what it had before it still has, element by element. -/

structure Gains (order : Order α) [Std.TransCmp order] (fresh : List (List α))
    (index later : Index α) : Prop where
  sets : ∃ listed listedLater, index.sets = .ok listed ∧ later.sets = .ok listedLater ∧
    listedLater.Perm (listed ++ fresh)
  subsets : ∀ took query, ∃ found foundLater,
    (index.subsetsOf took query).answer = .ok found ∧
      (later.subsetsOf took query).answer = .ok foundLater ∧
      foundLater.Perm (found ++ fresh.filter fun keys =>
        decide (order.ProperlyIncluded keys query))
  supersets : ∀ took query, ∃ found foundLater,
    (index.supersetsOf took query).answer = .ok found ∧
      (later.supersetsOf took query).answer = .ok foundLater ∧
      foundLater.Perm (found ++ fresh.filter fun keys =>
        decide (query ≠ [] ∧ order.ProperlyIncluded query keys))
  /-- The empty query is answered with nothing, at either point. -/
  supersets_nil : ∀ took, (index.supersetsOf took []).answer = .ok [] ∧
    (later.supersetsOf took []).answer = .ok []
  contains : ∀ took query, ∃ held heldLater,
    (index.contains took query).answer = .ok held ∧
      (later.contains took query).answer = .ok heldLater ∧
      (heldLater = true ↔
        held = true ∨ ∃ keys ∈ fresh, order.classes keys = order.classes query)
  nodes : Trie.NodesEndure index.trie later.trie

section Sound

variable [Std.TransCmp order]

theorem Sound.exists_fresh_serve (hsound : Sound order config index) (took : Elapsed)
    (request : Request α) :
    ∃ fresh, List.Forall₂ (StandsFor order) fresh
        (newlyStored request (index.serve took request).answer).toList ∧
      ((index.serve took request).index.trie.storedBelow Trie.root).Perm
        (index.trie.storedBelow Trie.root ++ fresh) := by
  have hcourse := hsound.course request
  rw [serve_eq]
  generalize index.outcome request = outcome at hcourse
  cases hcourse with
  | @inserted elements set newer actual insertion hset hinsert hinserts =>
      refine ⟨_, ?_, hinserts.storedBelow_perm hsound.shaped hsound.sorted⟩
      rw [settle]
      cases insertion.inserted with
      | false => exact .nil
      | true =>
          have hagree := hinserts.agree
          rw [(Canonical.elements_of_ofList? hset).2] at hagree
          exact .cons hagree .nil
  | refused | lookedUp | subsetsFound | supersetsFound | size | isEmpty =>
      exact ⟨[], .nil, List.Perm.of_eq (List.append_nil _).symm⟩

/-- Step by step, what is stored becomes more by the fresh sequences. -/
theorem Sound.exists_fresh (hsound : Sound order config index) (calls : List (Call α)) :
    ∃ fresh, List.Forall₂ (StandsFor order) fresh (index.storedIn calls) ∧
      ((index.after calls).trie.storedBelow Trie.root).Perm
        (index.trie.storedBelow Trie.root ++ fresh) := by
  induction calls generalizing index with
  | nil => exact ⟨[], .nil, List.Perm.of_eq (List.append_nil _).symm⟩
  | cons call calls induction =>
      obtain ⟨first, hfirst, hfirstPerm⟩ := hsound.exists_fresh_serve call.1 call.2
      obtain ⟨rest, hrest, hrestPerm⟩ := induction (hsound.serve call.1 call.2)
      refine ⟨first ++ rest, ?_, ?_⟩
      · rw [storedIn_cons]
        exact List.rel_append hfirst hrest
      · rw [← List.append_assoc]
        exact hrestPerm.trans (hfirstPerm.append_right rest)

theorem Sound.nodesEndure_serve (hsound : Sound order config index) (took : Elapsed)
    (request : Request α) :
    Trie.NodesEndure index.trie (index.serve took request).index.trie := by
  have hcourse := hsound.course request
  rw [serve_eq]
  generalize index.outcome request = outcome at hcourse
  cases hcourse with
  | @inserted elements set newer actual insertion hset hinsert hinserts =>
      have hendure := hsound.shaped.nodesEndure_insertPath order set.elements
      rwa [hinsert] at hendure
  | refused | lookedUp | subsetsFound | supersetsFound | size | isEmpty =>
      exact .refl index.trie

theorem Sound.nodesEndure_after (hsound : Sound order config index) (calls : List (Call α)) :
    Trie.NodesEndure index.trie (index.after calls).trie := by
  induction calls generalizing index with
  | nil => exact .refl index.trie
  | cons call calls induction =>
      exact (hsound.nodesEndure_serve call.1 call.2).trans
        (induction (hsound.serve call.1 call.2))

/-! The answers, from what is stored. -/

variable {fresh : List (List α)} (hsound : Sound order config index)
  (hlater : Sound order config later)
  (hperm : (later.trie.storedBelow Trie.root).Perm (index.trie.storedBelow Trie.root ++ fresh))
include hsound hlater hperm

theorem Sound.query_gains (direction : Direction) (took : Elapsed) (query : List α) :
    ∃ found foundLater,
      (index.settle took (index.query direction query)).answer = .ok found ∧
        (later.settle took (later.query direction query)).answer = .ok foundLater ∧
        foundLater.Perm (found ++ fresh.filter fun keys =>
          decide (direction.Selects order query keys)) := by
  obtain ⟨findings, hsearch, hfound⟩ := hsound.search_perm direction query
  obtain ⟨findingsLater, hsearchLater, hfoundLater⟩ := hlater.search_perm direction query
  refine ⟨_, _, query_answer hsearch, query_answer hsearchLater, ?_⟩
  have hselected := hperm.filter fun keys => decide (direction.Selects order query keys)
  rw [List.filter_append] at hselected
  exact hfoundLater.trans (hselected.trans (hfound.symm.append_right _))

theorem Sound.contains_gains (took : Elapsed) (query : List α) :
    ∃ held heldLater, (index.contains took query).answer = .ok held ∧
      (later.contains took query).answer = .ok heldLater ∧
      (heldLater = true ↔
        held = true ∨ ∃ keys ∈ fresh, order.classes keys = order.classes query) := by
  obtain ⟨held, hholds, hheld⟩ := hsound.holds_stored_iff query
  obtain ⟨heldLater, hholdsLater, hheldLater⟩ := hlater.holds_stored_iff query
  have hstores : ∀ keys, later.trie.Stores keys ↔ index.trie.Stores keys ∨ keys ∈ fresh := by
    intro keys
    rw [← hlater.shaped.mem_storedBelow_root_iff, hperm.mem_iff, List.mem_append,
      hsound.shaped.mem_storedBelow_root_iff]
  refine ⟨held, heldLater, ?_, ?_, ?_⟩
  · simp [Index.contains, settle, lookup, Outcome.ofLook, hholds]
  · simp [Index.contains, settle, lookup, Outcome.ofLook, hholdsLater]
  · simp only [hheld, hheldLater, hstores, or_and_right, exists_or]

theorem Sound.gains (hendure : Trie.NodesEndure index.trie later.trie) :
    Gains order fresh index later where
  sets := ⟨_, _, hsound.shaped.sequences_eq, hlater.shaped.sequences_eq, hperm⟩
  subsets := by
    intro took query
    obtain ⟨found, foundLater, hfound, hfoundLater, hgains⟩ :=
      hsound.query_gains hlater hperm .subsets took query
    refine ⟨found, foundLater, hfound, hfoundLater, hgains.trans (List.Perm.of_eq ?_)⟩
    congr 1
    apply List.filter_congr
    intro keys _
    exact decide_eq_decide.mpr Direction.selects_subsets_iff
  supersets := hsound.query_gains hlater hperm .supersets
  supersets_nil := fun _ => ⟨rfl, rfl⟩
  contains := hsound.contains_gains hlater hperm
  nodes := hendure

end Sound

/-- Whatever a run goes on with, the index gains the sets of the additions that were
answered with `true`, one for each of them, and loses nothing. -/
theorem run_gains (order : Order α) [Std.TransCmp order] (config : Config)
    (recorder : Recorder) (calls more : List (Call α)) :
    ∃ fresh, List.Forall₂ (StandsFor order) fresh
        ((run order config recorder calls).storedIn more) ∧
      Gains order fresh (run order config recorder calls)
        ((run order config recorder calls).after more) := by
  have hsound := run_sound order config recorder calls
  obtain ⟨fresh, hstands, hperm⟩ := hsound.exists_fresh more
  exact ⟨fresh, hstands,
    hsound.gains (hsound.after more) hperm (hsound.nodesEndure_after more)⟩

/-- Marks a node on the way to a longer set, and puts a branch before others. -/
def furtherCalls : List (Call Int) :=
  [(.zero, .add [3, 1]), (.zero, .add [12, 21, 2]), (.zero, .add [33, 41]),
    (.zero, .supersetsOf [1])]

theorem run_gains_furtherCalls :
    (run Order.byLastDigit .default .silent digitCalls).storedIn furtherCalls =
        [[3, 1], [12, 21, 2]] ∧
      ∃ fresh, List.Forall₂ (StandsFor Order.byLastDigit) fresh
          ((run Order.byLastDigit .default .silent digitCalls).storedIn furtherCalls) ∧
        Gains Order.byLastDigit fresh (run Order.byLastDigit .default .silent digitCalls)
          ((run Order.byLastDigit .default .silent digitCalls).after furtherCalls) :=
  ⟨by decide +kernel, run_gains Order.byLastDigit .default .silent digitCalls furtherCalls⟩

/-! The empty set is the one query whose supersets are not all answered. -/

def emptyIntegers : Index Int :=
  run Order.natural .default .silent []

theorem supersetsOf_nil_not_gains :
    ¬ ∃ fresh, List.Forall₂ (StandsFor Order.natural) fresh
        (emptyIntegers.storedIn [(.zero, .add [1])]) ∧
      ∃ found foundLater, (emptyIntegers.supersetsOf .zero []).answer = .ok found ∧
        ((emptyIntegers.after [(.zero, .add [1])]).supersetsOf .zero []).answer =
          .ok foundLater ∧
        foundLater.Perm (found ++ fresh.filter fun keys =>
          decide (Order.natural.ProperlyIncluded [] keys)) := by
  rintro ⟨fresh, hstands, found, foundLater, hfound, hfoundLater, hperm⟩
  have hstored : emptyIntegers.storedIn [(.zero, .add [1])] = [[1]] := by decide +kernel
  rw [hstored] at hstands
  cases hstands with
  | cons hone hnone =>
      cases hnone
      cases hone with
      | cons heq hrest =>
          cases hrest
          cases hfound
          cases hfoundLater
          have hlength := hperm.length_eq
          simp [Order.ProperlyIncluded, Trie.Findings.none] at hlength

end Containment.Index
