import Containment.Proofs.Index.Family
import Containment.Proofs.Index.Search

namespace Containment

variable {α : Type} {order : Order α} {config : Config} {index : Index α}

/-- The same outcome with its answer as a reply. -/
def Outcome.map {β γ : Type} (reply : β → γ) (outcome : Outcome α β) : Outcome α γ :=
  { outcome with answer := outcome.answer.map reply }

namespace Index

/-! What a request comes to before it is counted. -/

def outcome (index : Index α) : Request α → Outcome α (Reply α)
  | .add elements => (index.addition elements).map .flag
  | .contains elements => (index.lookup elements).map .flag
  | .subsetsOf elements => (index.query .subsets elements).map .sets
  | .supersetsOf elements => (index.query .supersets elements).map .sets
  | .size =>
      { trie := index.trie, answer := .ok (.count index.size), events := [], activity := none }
  | .isEmpty =>
      { trie := index.trie, answer := .ok (.flag index.isEmpty), events := [], activity := none }

theorem serve_eq (index : Index α) (took : Elapsed) (request : Request α) :
    index.serve took request = index.settle took (index.outcome request) := by
  cases request <;> rfl

/-- The ways a request can go with a sound index. An addition is refused or inserts a
canonical form; whatever else is asked for is answered, and the trie stays as it is. -/
inductive Course (order : Order α) [Std.TransCmp order] (index : Index α) :
    Request α → Outcome α (Reply α) → Prop
  | refused {elements : List α} {reason : Refusal}
      (hrefused : index.admissible elements = .error reason) :
      Course order index (.add elements)
        { trie := index.trie
          answer := .error (.refused reason)
          events := [.rejected elements.length reason]
          activity := some .rejected }
  | inserted {elements : List α} {set : Canonical α} {newer : Trie α} {actual : List α}
      {insertion : Trie.Insertion}
      (hset : Canonical.ofList? order elements = some set)
      (hinsert : index.trie.insertPath order set.elements = (.ok insertion, newer))
      (hinserts : Trie.Inserts order index.trie newer set.elements actual insertion) :
      Course order index (.add elements)
        { trie := newer
          answer := .ok (.flag insertion.inserted)
          events := extensionEvents set insertion ++ [.added set.size insertion.inserted]
          activity := some (.added insertion.inserted insertion.created) }
  | lookedUp {elements : List α} {held : Bool} (hholds : index.holds elements = .ok held) :
      Course order index (.contains elements)
        { trie := index.trie
          answer := .ok (.flag held)
          events := [.lookedUp elements.length held]
          activity := some (.lookedUp held) }
  | subsetsFound {elements : List α} {findings : Trie.Findings α}
      (hsearch : index.search .subsets elements = .ok findings) :
      Course order index (.subsetsOf elements)
        { trie := index.trie
          answer := .ok (.sets findings.sets)
          events :=
            [.queried .subsets elements.length findings.sets.length findings.visited]
          activity := some (.queried .subsets findings.sets.length findings.visited) }
  | supersetsFound {elements : List α} {findings : Trie.Findings α}
      (hsearch : index.search .supersets elements = .ok findings) :
      Course order index (.supersetsOf elements)
        { trie := index.trie
          answer := .ok (.sets findings.sets)
          events :=
            [.queried .supersets elements.length findings.sets.length findings.visited]
          activity := some (.queried .supersets findings.sets.length findings.visited) }
  | size :
      Course order index .size
        { trie := index.trie
          answer := .ok (.count index.size)
          events := []
          activity := none }
  | isEmpty :
      Course order index .isEmpty
        { trie := index.trie
          answer := .ok (.flag index.isEmpty)
          events := []
          activity := none }

theorem query_outcome {direction : Direction} {elements : List α}
    {findings : Trie.Findings α} (hsearch : index.search direction elements = .ok findings) :
    index.query direction elements =
      { trie := index.trie
        answer := .ok findings.sets
        events := [.queried direction elements.length findings.sets.length findings.visited]
        activity := some (.queried direction findings.sets.length findings.visited) } := by
  simp only [query, Outcome.ofLook, hsearch]

theorem Sound.course [Std.TransCmp order] (hsound : Sound order config index)
    (request : Request α) : Course order index request (index.outcome request) := by
  cases request with
  | add elements =>
      rcases hsound.addition_cases elements with
        ⟨reason, hrefused, haddition⟩ | ⟨_, insertion, _, _, _, _, _, _, haddition⟩
      · rw [outcome, haddition]
        exact .refused hrefused
      · have hanswer : (index.addition elements).answer = .ok insertion.inserted := by
          rw [haddition]
          rfl
        obtain ⟨_, _, _, _, hset, _, hinsert, hinserts, hinserted⟩ :=
          hsound.exists_inserts hanswer
        rw [outcome, hinserted]
        exact .inserted hset hinsert hinserts
  | contains elements =>
      obtain ⟨held, hholds, _⟩ := hsound.holds_stored_iff elements
      simp only [outcome, lookup, Outcome.ofLook, hholds]
      exact .lookedUp hholds
  | subsetsOf elements =>
      obtain ⟨findings, hsearch, _⟩ := hsound.search_perm .subsets elements
      rw [outcome, query_outcome hsearch]
      exact .subsetsFound hsearch
  | supersetsOf elements =>
      obtain ⟨findings, hsearch, _⟩ := hsound.search_perm .supersets elements
      rw [outcome, query_outcome hsearch]
      exact .supersetsFound hsearch
  | size => exact .size
  | isEmpty => exact .isEmpty

/-! What passes between an index and its callers in a run: each request, with the index
that it meets. -/

structure Exchange (α : Type) where
  index : Index α
  took : Elapsed
  request : Request α

def exchanges (index : Index α) : List (Call α) → List (Exchange α)
  | [] => []
  | call :: calls =>
      { index, took := call.1, request := call.2 } ::
        (index.serve call.1 call.2).index.exchanges calls

def Exchange.answer (exchange : Exchange α) : Except Failure (Reply α) :=
  (exchange.index.serve exchange.took exchange.request).answer

theorem Exchange.answer_eq (exchange : Exchange α) :
    exchange.answer = (exchange.index.outcome exchange.request).answer := by
  rw [answer, serve_eq]
  rfl

theorem Sound.of_mem_exchanges [Std.TransCmp order] (hsound : Sound order config index)
    {calls : List (Call α)} {exchange : Exchange α}
    (hexchange : exchange ∈ index.exchanges calls) : Sound order config exchange.index := by
  induction calls generalizing index with
  | nil => cases hexchange
  | cons call calls induction =>
      rcases List.mem_cons.mp hexchange with rfl | hlater
      · exact hsound
      · exact induction (hsound.serve call.1 call.2) hlater

end Index

end Containment
