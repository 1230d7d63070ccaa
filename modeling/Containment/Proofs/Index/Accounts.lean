import Containment.Proofs.Index.Transcript
import Containment.Proofs.Tally
import Containment.Proofs.Trie.Founders
import Mathlib.Algebra.GroupWithZero.Nat

namespace Containment

variable {α : Type} {order : Order α} {config : Config} {index : Index α}

/-! What callers know of a request: what was asked for, and what was answered. -/

namespace Request

def accepted : Request α → Except Failure (Reply α) → Bool
  | .add _, .ok _ => true
  | _, _ => false

def rejected : Request α → Except Failure (Reply α) → Bool
  | .add _, .error _ => true
  | _, _ => false

def looksUp : Request α → Bool
  | .contains _ => true
  | _ => false

def finds : Request α → Except Failure (Reply α) → Bool
  | .contains _, .ok (.flag held) => held
  | _, _ => false

def queries : Direction → Request α → Bool
  | .subsets, .subsetsOf _ => true
  | .supersets, .supersetsOf _ => true
  | _, _ => false

/-- The number of sets in an answer. -/
def results : Except Failure (Reply α) → Nat
  | .ok (.sets found) => found.length
  | _ => 0

end Request

/-- The number of items that a search visits; there is none for the empty set. -/
def Index.visits (index : Index α) (direction : Direction) : List α → Nat
  | [] => 0
  | first :: rest =>
      match index.search direction (first :: rest) with
      | .ok findings => findings.visited
      | .error _ => 0

/-- The number of items that the search of a request visits, if it is a query. -/
def Index.visited (index : Index α) : Request α → Nat
  | .subsetsOf elements => index.visits .subsets elements
  | .supersetsOf elements => index.visits .supersets elements
  | _ => 0

/-! What the recorder is told is what callers know. -/

def Outcome.weigh {β : Type} (outcome : Outcome α β) (weight : Activity → Nat) : Nat :=
  match outcome.activity with
  | some activity => weight activity
  | none => 0

namespace Index

structure Weighed (index : Index α) (request : Request α) (outcome : Outcome α (Reply α)) :
    Prop where
  accepted : (outcome.weigh fun activity => activity.stored + activity.repeated) =
    (request.accepted outcome.answer).toNat
  rejected : outcome.weigh Activity.refused = (request.rejected outcome.answer).toNat
  looksUp : outcome.weigh Activity.lookups = request.looksUp.toNat
  finds : outcome.weigh Activity.hits = (request.finds outcome.answer).toNat
  subsetQueries : outcome.weigh (Activity.queries .subsets) = (request.queries .subsets).toNat
  supersetQueries :
    outcome.weigh (Activity.queries .supersets) = (request.queries .supersets).toNat
  results : outcome.weigh Activity.results = Request.results outcome.answer
  visited : outcome.weigh Activity.visited = index.visited request

theorem visits_eq {direction : Direction} {elements : List α} {findings : Trie.Findings α}
    (hsearch : index.search direction elements = .ok findings) :
    index.visits direction elements = findings.visited := by
  cases elements with
  | nil =>
      cases hsearch
      rfl
  | cons first rest => simp only [visits, hsearch]

theorem Course.weighed [Std.TransCmp order] {request : Request α}
    {outcome : Outcome α (Reply α)} (hcourse : Course order index request outcome) :
    index.Weighed request outcome := by
  cases hcourse with
  | refused | size | isEmpty => constructor <;> rfl
  | @inserted elements set newer actual insertion =>
      constructor
      case accepted => cases insertion.inserted <;> rfl
      all_goals rfl
  | @lookedUp elements held =>
      constructor
      case finds => cases held <;> rfl
      all_goals rfl
  | subsetsFound hsearch | supersetsFound hsearch =>
      constructor
      case visited => exact (visits_eq hsearch).symm
      all_goals rfl

/-! The recorder after a run has been told of each exchange, and nothing else. -/

def Exchange.outcome (exchange : Exchange α) : Outcome α (Reply α) :=
  exchange.index.outcome exchange.request

def Exchange.entry? (exchange : Exchange α) : Option (Elapsed × Activity) :=
  exchange.outcome.activity.map fun activity => (exchange.took, activity)

theorem recorder_after (index : Index α) (calls : List (Call α)) :
    (index.after calls).recorder =
      index.recorder.recordAll ((index.exchanges calls).filterMap Exchange.entry?) := by
  induction calls generalizing index with
  | nil => rfl
  | cons call calls induction =>
      rw [after_cons, induction, exchanges, List.filterMap_cons, Exchange.entry?,
        Exchange.outcome, serve_eq, settle]
      cases (index.outcome call.2).activity <;> rfl

theorem totalOf_entries (weight : Activity → Nat) (exchanges : List (Exchange α)) :
    totalOf weight ((exchanges.filterMap Exchange.entry?).map Prod.snd) =
      (exchanges.map fun exchange => exchange.outcome.weigh weight).sum := by
  induction exchanges with
  | nil => rfl
  | cons exchange exchanges induction =>
      rw [List.map_cons, List.sum_cons, ← induction, List.filterMap_cons, Exchange.entry?,
        Outcome.weigh]
      cases exchange.outcome.activity with
      | none => exact (Nat.zero_add _).symm
      | some activity => rfl

theorem sum_toNat_eq_countP (test : Exchange α → Bool) (exchanges : List (Exchange α)) :
    (exchanges.map fun exchange => (test exchange).toNat).sum = exchanges.countP test := by
  induction exchanges with
  | nil => rfl
  | cons exchange exchanges induction =>
      rw [List.map_cons, List.sum_cons, induction, List.countP_cons, Nat.add_comm]
      cases test exchange <;> rfl

section Counter

variable {counter : Tally → UInt64} {weight : Activity → Nat}
  (hcounts : Counts counter weight) (hzero : counter .zero = 0)
  (hrecorder : index.recorder = .counting .zero) {calls : List (Call α)}
include hcounts hzero hrecorder

theorem counter_eq_sum {amount : Exchange α → Nat}
    (hamount : ∀ exchange ∈ index.exchanges calls,
      exchange.outcome.weigh weight = amount exchange) :
    counter (index.after calls).recorder.tally =
      UInt64.ofNat ((index.exchanges calls).map amount).sum := by
  rw [recorder_after, hrecorder, hcounts.recordAll, totalOf_entries, hzero, UInt64.zero_add,
    List.map_congr_left hamount]

theorem counter_eq_countP {test : Exchange α → Bool}
    (htest : ∀ exchange ∈ index.exchanges calls,
      exchange.outcome.weigh weight = (test exchange).toNat) :
    counter (index.after calls).recorder.tally =
      UInt64.ofNat ((index.exchanges calls).countP test) := by
  rw [counter_eq_sum hcounts hzero hrecorder htest, sum_toNat_eq_countP]

end Counter

section Sound

variable [Std.TransCmp order]

theorem Sound.weighed (hsound : Sound order config index) {calls : List (Call α)}
    {exchange : Exchange α} (hexchange : exchange ∈ index.exchanges calls) :
    exchange.index.Weighed exchange.request exchange.outcome :=
  ((hsound.of_mem_exchanges hexchange).course exchange.request).weighed

/-- What an index grows by is what is counted as stored and as created. -/
theorem Sound.growth_serve (hsound : Sound order config index) (took : Elapsed)
    (request : Request α) :
    (index.serve took request).index.trie.stored =
        index.trie.stored + (index.outcome request).weigh Activity.stored ∧
      (index.serve took request).index.trie.nodes.size =
        index.trie.nodes.size + (index.outcome request).weigh Activity.created := by
  have hcourse := hsound.course request
  rw [serve_eq]
  generalize index.outcome request = outcome at hcourse
  cases hcourse with
  | @inserted elements set newer actual insertion hset hinsert hinserts =>
      refine ⟨hinserts.stored_eq.trans ?_, hsound.shaped.insertPath_size hinsert⟩
      rw [Outcome.weigh]
      cases insertion.inserted <;> rfl
  | refused | lookedUp | subsetsFound | supersetsFound | size | isEmpty => exact ⟨rfl, rfl⟩

theorem Sound.growth_after (hsound : Sound order config index) (calls : List (Call α)) :
    (index.after calls).trie.stored = index.trie.stored +
        ((index.exchanges calls).map fun exchange =>
          exchange.outcome.weigh Activity.stored).sum ∧
      (index.after calls).trie.nodes.size = index.trie.nodes.size +
        ((index.exchanges calls).map fun exchange =>
          exchange.outcome.weigh Activity.created).sum := by
  induction calls generalizing index with
  | nil => exact ⟨rfl, rfl⟩
  | cons call calls induction =>
      obtain ⟨hstored, hnodes⟩ := hsound.growth_serve call.1 call.2
      obtain ⟨hstoredLater, hnodesLater⟩ := induction (hsound.serve call.1 call.2)
      simp only [after_cons, exchanges, List.map_cons, List.sum_cons, Exchange.outcome]
      rw [hstoredLater, hstored, hnodesLater, hnodes, Nat.add_assoc, Nat.add_assoc]
      exact ⟨rfl, rfl⟩

/-- The counters of a recorder that was at zero when the exchanges began, against the
exchanges and against what the index has grown by. -/
structure Accounts (tally : Tally) (exchanges : List (Exchange α)) (start final : Index α) :
    Prop where
  size_le : start.size ≤ final.size
  nodeCount_le : start.nodeCount ≤ final.nodeCount
  setsAdded : tally.setsAdded = UInt64.ofNat (final.size - start.size)
  nodesCreated : tally.nodesCreated = UInt64.ofNat (final.nodeCount - start.nodeCount)
  accepted : tally.setsAdded + tally.duplicateAdds = UInt64.ofNat
    (exchanges.countP fun exchange => exchange.request.accepted exchange.answer)
  rejectedAdds : tally.rejectedAdds = UInt64.ofNat
    (exchanges.countP fun exchange => exchange.request.rejected exchange.answer)
  lookupsPerformed : tally.lookupsPerformed = UInt64.ofNat
    (exchanges.countP fun exchange => exchange.request.looksUp)
  lookupsPositive : tally.lookupsPositive = UInt64.ofNat
    (exchanges.countP fun exchange => exchange.request.finds exchange.answer)
  subsetQueries : tally.subsetQueries = UInt64.ofNat
    (exchanges.countP fun exchange => exchange.request.queries .subsets)
  supersetQueries : tally.supersetQueries = UInt64.ofNat
    (exchanges.countP fun exchange => exchange.request.queries .supersets)
  resultsReturned : tally.resultsReturned = UInt64.ofNat
    (exchanges.map fun exchange => Request.results exchange.answer).sum
  nodesVisited : tally.nodesVisited = UInt64.ofNat
    (exchanges.map fun exchange => exchange.index.visited exchange.request).sum

theorem Sound.accounts (hsound : Sound order config index)
    (hrecorder : index.recorder = .counting .zero) (calls : List (Call α)) :
    Accounts (index.after calls).recorder.tally (index.exchanges calls) index
      (index.after calls) := by
  obtain ⟨hadded, hduplicate, hrejected, hcreated⟩ := counts_additions
  obtain ⟨hlookups, hhits, hsubsets, hsupersets, hresults, hvisited⟩ := counts_looks
  obtain ⟨hstored, hnodes⟩ := hsound.growth_after calls
  have hpos := hsound.shaped.size_pos
  have hweighed : ∀ exchange ∈ index.exchanges calls,
      exchange.index.Weighed exchange.request exchange.outcome :=
    fun exchange hexchange => hsound.weighed hexchange
  constructor
  case size_le =>
    rw [size, size, hstored]
    exact Nat.le_add_right _ _
  case nodeCount_le =>
    simp only [nodeCount, Trie.nodeCount]
    omega
  case setsAdded =>
    rw [counter_eq_sum hadded rfl hrecorder fun _ _ => rfl, size, size, hstored,
      Nat.add_sub_cancel_left]
  case nodesCreated =>
    rw [counter_eq_sum hcreated rfl hrecorder fun _ _ => rfl]
    congr 1
    simp only [nodeCount, Trie.nodeCount]
    omega
  case accepted =>
    apply counter_eq_countP (hadded.add hduplicate) rfl hrecorder
    intro exchange hexchange
    rw [(hweighed exchange hexchange).accepted, Exchange.answer_eq, Exchange.outcome]
  case rejectedAdds =>
    apply counter_eq_countP hrejected rfl hrecorder
    intro exchange hexchange
    rw [(hweighed exchange hexchange).rejected, Exchange.answer_eq, Exchange.outcome]
  case lookupsPerformed =>
    apply counter_eq_countP hlookups rfl hrecorder
    exact fun exchange hexchange => (hweighed exchange hexchange).looksUp
  case lookupsPositive =>
    apply counter_eq_countP hhits rfl hrecorder
    intro exchange hexchange
    rw [(hweighed exchange hexchange).finds, Exchange.answer_eq, Exchange.outcome]
  case subsetQueries =>
    apply counter_eq_countP hsubsets rfl hrecorder
    exact fun exchange hexchange => (hweighed exchange hexchange).subsetQueries
  case supersetQueries =>
    apply counter_eq_countP hsupersets rfl hrecorder
    exact fun exchange hexchange => (hweighed exchange hexchange).supersetQueries
  case resultsReturned =>
    apply counter_eq_sum hresults rfl hrecorder
    intro exchange hexchange
    rw [(hweighed exchange hexchange).results, Exchange.answer_eq, Exchange.outcome]
  case nodesVisited =>
    apply counter_eq_sum hvisited rfl hrecorder
    exact fun exchange hexchange => (hweighed exchange hexchange).visited

/-! Stretches of calls, each ended by a reset of the recorder. -/

def metered (order : Order α) (config : Config) : Index α :=
  (build order config).withRecorder (.counting .zero)

def stretch (index : Index α) (calls : List (Call α)) : Index α :=
  (index.after calls).withRecorder (index.after calls).recorder.reset

def stretches (index : Index α) (earlier : List (List (Call α))) : Index α :=
  earlier.foldl stretch index

theorem Sound.stretches (hsound : Sound order config index)
    (hrecorder : index.recorder = .counting .zero) (earlier : List (List (Call α))) :
    Sound order config (index.stretches earlier) ∧
      (index.stretches earlier).recorder = .counting .zero := by
  induction earlier generalizing index with
  | nil => exact ⟨hsound, hrecorder⟩
  | cons calls earlier induction =>
      apply induction
      · exact (hsound.after calls).of_trie rfl rfl rfl
      · change (index.after calls).recorder.reset = .counting .zero
        rw [recorder_after, reset_recordAll, hrecorder]
        rfl

end Sound

/-- From its creation or from any reset on, the recorder of an index agrees with what the
index has grown by and with the answers that it has given. -/
theorem metered_accounts (order : Order α) [Std.TransCmp order] (config : Config)
    (earlier : List (List (Call α))) (calls : List (Call α)) :
    Accounts (((metered order config).stretches earlier).after calls).recorder.tally
      (((metered order config).stretches earlier).exchanges calls)
      ((metered order config).stretches earlier)
      (((metered order config).stretches earlier).after calls) := by
  have hbuild := Sound.build order config (.counting .zero)
  obtain ⟨hsound, hrecorder⟩ := hbuild.stretches rfl earlier
  exact hsound.accounts hrecorder calls

/-- Each kind of request, with and without success. -/
def mixedCalls : List (Call Int) :=
  [(.zero, .add [12, 1, 3]), (.zero, .add [33, 21, 22]), (.zero, .add []),
    (.zero, .contains [11, 23, 15]), (.zero, .contains [2]), (.zero, .subsetsOf [2, 1, 3, 5]),
    (.zero, .supersetsOf []), (.zero, .add [1, 2]), (.zero, .supersetsOf [5])]

theorem metered_accounts_mixedCalls :
    (((metered Order.byLastDigit .default).stretches [digitCalls]).after
        mixedCalls).recorder.tally.nodesCreated = 2 ∧
      Accounts
        (((metered Order.byLastDigit .default).stretches [digitCalls]).after
          mixedCalls).recorder.tally
        (((metered Order.byLastDigit .default).stretches [digitCalls]).exchanges mixedCalls)
        ((metered Order.byLastDigit .default).stretches [digitCalls])
        (((metered Order.byLastDigit .default).stretches [digitCalls]).after mixedCalls) :=
  ⟨by decide +kernel, metered_accounts Order.byLastDigit .default [digitCalls] mixedCalls⟩

end Index

end Containment
