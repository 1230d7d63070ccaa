import Containment.Proofs.Event
import Containment.Proofs.Index.Accounts
import Containment.Proofs.Index.Operation
import Containment.Proofs.Trie.Accretion

namespace Containment

variable {α : Type} {order : Order α} {config : Config} {index : Index α} {lines : List String}

namespace Index

/-- Only requests are reported. -/
def emits (index : Index α) : Operation α → List Event
  | .serve took request => (index.serve took request).events
  | .sets | .nodeCount | .dump _ | .check => []

theorem emits_serve (index : Index α) (took : Elapsed) (request : Request α) :
    index.emits (.serve took request) = (index.outcome request).events := by
  rw [emits, serve_eq]
  rfl

/-- All that a run reports, one event after another. -/
def log (index : Index α) : List (Operation α) → List Event
  | [] => []
  | operation :: operations =>
      index.emits operation ++ (index.operate operation).1.log operations

/-! Every event is written as a line of its own. -/

def writes (index : Index α) (operation : Operation α) : List String :=
  (index.emits operation).map Event.line

def journal (index : Index α) (operations : List (Operation α)) : List String :=
  (index.log operations).map Event.line

theorem journal_cons (index : Index α) (operation : Operation α)
    (operations : List (Operation α)) :
    index.journal (operation :: operations) =
      index.writes operation ++ (index.operate operation).1.journal operations := by
  rw [journal, log, List.map_append]
  rfl

/-! A request has one line, which tells what was asked for and what was answered. -/

inductive Reports (order : Order α) [Std.TransCmp order] (index : Index α) :
    Request α → Except Failure (Reply α) → String → Prop
  | added (elements : List α) (inserted : Bool) :
      Reports order index (.add elements) (.ok (.flag inserted))
        ("DEBUG [set-trie] Added set set_size=" ++ (order.classes elements).card.repr ++
          " inserted=" ++ Event.flagText inserted)
  | rejected (elements : List α) (reason : Refusal) :
      Reports order index (.add elements) (.error (.refused reason))
        ("DEBUG [set-trie] Rejected add input_len=" ++ elements.length.repr ++
          " error=" ++ reason.message)
  | lookedUp (elements : List α) (held : Bool) :
      Reports order index (.contains elements) (.ok (.flag held))
        ("DEBUG [set-trie] Lookup input_len=" ++ elements.length.repr ++
          " found=" ++ Event.flagText held)
  | subsetsFound (elements : List α) (found : List (List α)) :
      Reports order index (.subsetsOf elements) (.ok (.sets found))
        ("DEBUG [set-trie] Containment query kind=Subsets input_len=" ++
          elements.length.repr ++ " results=" ++ found.length.repr ++
          " nodes_visited=" ++ (index.visits .subsets elements).repr)
  | supersetsFound (elements : List α) (found : List (List α)) :
      Reports order index (.supersetsOf elements) (.ok (.sets found))
        ("DEBUG [set-trie] Containment query kind=Supersets input_len=" ++
          elements.length.repr ++ " results=" ++ found.length.repr ++
          " nodes_visited=" ++ (index.visits .supersets elements).repr)

def Operation.silent : Operation α → Bool
  | .serve _ .size | .serve _ .isEmpty => true
  | .serve _ _ => false
  | _ => true

/-- The lines of one operation. Before the line of an addition stands another exactly when
nodes were made; such an addition has stored something. -/
inductive Utters (order : Order α) [Std.TransCmp order] (index : Index α) :
    Operation α → List String → Prop
  | line {took : Elapsed} {request : Request α} {line : String}
      (hreports : Reports order index request (index.serve took request).answer line)
      (hsame : (index.serve took request).index.nodeCount = index.nodeCount) :
      Utters order index (.serve took request) [line]
  | extension {took : Elapsed} {elements : List α} {created : Nat} {line : String}
      (hanswer : (index.serve took (.add elements)).answer = .ok (.flag true))
      (hreports : Reports order index (.add elements) (.ok (.flag true)) line)
      (hcreated : 0 < created)
      (hgrown : (index.serve took (.add elements)).index.nodeCount =
        index.nodeCount + created) :
      Utters order index (.serve took (.add elements))
        ["TRACE [set-trie] Extended trie nodes_created=" ++ created.repr ++
          " depth=" ++ (order.classes elements).card.repr, line]
  | nothing {operation : Operation α} (hsilent : operation.silent = true) :
      Utters order index operation []

theorem extensionEvents_of_zero {set : Canonical α} {insertion : Trie.Insertion}
    (hcreated : insertion.created = 0) : extensionEvents set insertion = [] := by
  rw [extensionEvents, if_pos hcreated]

theorem extensionEvents_of_pos {set : Canonical α} {insertion : Trie.Insertion}
    (hcreated : 0 < insertion.created) :
    extensionEvents set insertion = [.extended insertion.created set.size] := by
  rw [extensionEvents, if_neg (Nat.ne_of_gt hcreated)]

section Sound

variable [Std.TransCmp order]

theorem Sound.nodeCount_serve (hsound : Sound order config index) (took : Elapsed)
    (request : Request α) :
    (index.serve took request).index.nodeCount =
      index.nodeCount + (index.outcome request).weigh Activity.created := by
  have hnodes := (hsound.growth_serve took request).2
  have hpos := hsound.shaped.size_pos
  simp only [nodeCount, Trie.nodeCount, hnodes]
  omega

theorem Sound.utters (hsound : Sound order config index) (operation : Operation α) :
    Utters order index operation (index.writes operation) := by
  cases operation with
  | sets | nodeCount | dump | check => exact .nothing rfl
  | serve took request =>
      have hcourse := hsound.course request
      have hnodes := hsound.nodeCount_serve took request
      have hanswer : (index.serve took request).answer = (index.outcome request).answer := by
        rw [serve_eq]
        rfl
      rw [writes, emits_serve]
      generalize index.outcome request = outcome at hcourse hnodes hanswer
      cases hcourse with
      | size | isEmpty => exact .nothing rfl
      | refused =>
          rw [List.map_singleton, Event.line_rejected]
          exact .line (hanswer ▸ .rejected _ _) hnodes
      | lookedUp =>
          rw [List.map_singleton, Event.line_lookedUp]
          exact .line (hanswer ▸ .lookedUp _ _) hnodes
      | subsetsFound hsearch =>
          rw [List.map_singleton, Event.line_queried, ← visits_eq hsearch]
          exact .line (hanswer ▸ .subsetsFound _ _) hnodes
      | supersetsFound hsearch =>
          rw [List.map_singleton, Event.line_queried, ← visits_eq hsearch]
          exact .line (hanswer ▸ .supersetsFound _ _) hnodes
      | @inserted elements set newer actual insertion hset hinsert =>
          obtain ⟨_, _, _, _, _, _, hnew⟩ := hsound.shaped.insertPath_eq_ok hinsert
          have hsize := (Canonical.presents_of_ofList? hset).size_eq
          rcases Nat.eq_zero_or_pos insertion.created with hzero | hpos
          · rw [extensionEvents_of_zero hzero, List.nil_append, List.map_singleton,
              Event.line_added, hsize]
            refine .line (hanswer ▸ .added _ _) (hnodes.trans ?_)
            simp only [Outcome.weigh, Activity.created, hzero, Nat.add_zero]
          · rw [extensionEvents_of_pos hpos, List.singleton_append, List.map_cons,
              List.map_singleton, Event.line_extended, Event.line_added, hsize]
            rw [hnew hpos] at hanswer ⊢
            exact .extension hanswer (.added _ _) hpos hnodes

end Sound

/-! After the line of an extension comes that of the addition it was made for, which has
stored a set of that size. -/

structure Extends (line next : String) : Prop where
  message : Line.message line = "[set-trie] Extended trie"
  created : 0 < Line.nodesCreated line
  stores : Line.newSize? next = some (Line.number "depth" line)

def Followed (lines : List String) : Prop :=
  ∀ (position : Nat) (line : String), lines[position]? = some line →
    Line.level line = "TRACE" →
    ∃ next, lines[position + 1]? = some next ∧ Extends line next

theorem followed_nil : Followed [] := by
  intro position line hline
  cases hline

theorem Followed.append {front back : List String} (hfront : Followed front)
    (hback : Followed back) : Followed (front ++ back) := by
  intro position line hline hlevel
  by_cases hposition : position < front.length
  · rw [List.getElem?_append_left hposition] at hline
    obtain ⟨next, hnext, hextends⟩ := hfront position line hline hlevel
    refine ⟨next, ?_, hextends⟩
    rw [List.getElem?_append_left (List.getElem?_eq_some_iff.mp hnext).1, hnext]
  · have hle := Nat.le_of_not_lt hposition
    rw [List.getElem?_append_right hle] at hline
    rw [List.getElem?_append_right (Nat.le_succ_of_le hle), Nat.succ_sub hle]
    exact hback _ line hline hlevel

section Lines

variable [Std.TransCmp order]

theorem Reports.level {request : Request α} {answer : Except Failure (Reply α)}
    {line : String} (hreports : Reports order index request answer line) :
    Line.level line = "DEBUG" := by
  cases hreports with
  | added => rw [← Event.line_added, Event.level_line]; rfl
  | rejected => rw [← Event.line_rejected, Event.level_line]; rfl
  | lookedUp => rw [← Event.line_lookedUp, Event.level_line]; rfl
  | subsetsFound => exact Event.line_queried .subsets _ _ _ ▸ Event.level_line _
  | supersetsFound => exact Event.line_queried .supersets _ _ _ ▸ Event.level_line _

theorem Utters.followed {operation : Operation α}
    (hutters : Utters order index operation lines) : Followed lines := by
  intro position line hline hlevel
  cases hutters with
  | nothing => cases hline
  | line hreports =>
      cases position with
      | zero =>
          cases hline
          rw [hreports.level] at hlevel
          contradiction
      | succ position => cases hline
  | extension _ hreports hcreated =>
      match position with
      | 0 =>
          cases hline
          cases hreports
          refine ⟨_, rfl, ?_⟩
          rw [← Event.line_extended, ← Event.line_added]
          constructor
          case message => exact Event.message_line _
          case created => rwa [Event.nodesCreated_line]
          case stores =>
            rw [Event.newSize?_line, Event.number_line (by simp [Event.message]) (by decide) rfl]
            rfl
      | 1 =>
          cases hline
          rw [hreports.level] at hlevel
          contradiction
      | position + 2 => cases hline

end Lines

/-! The lines of a request weigh what the recorder is told of it. -/

structure Told (outcome : Outcome α (Reply α)) : Prop where
  created : (outcome.events.map Event.nodesCreated).sum = outcome.weigh Activity.created
  stored : outcome.events.countP Pattern.stored.matchesEvent = outcome.weigh Activity.stored
  repeated :
    outcome.events.countP Pattern.repeated.matchesEvent = outcome.weigh Activity.repeated
  refused : outcome.events.countP Pattern.rejected.matchesEvent = outcome.weigh Activity.refused
  lookups : outcome.events.countP Pattern.lookup.matchesEvent = outcome.weigh Activity.lookups
  hits : outcome.events.countP Pattern.hit.matchesEvent = outcome.weigh Activity.hits
  subsetQueries : outcome.events.countP Pattern.subsetQuery.matchesEvent =
    outcome.weigh (Activity.queries .subsets)
  supersetQueries : outcome.events.countP Pattern.supersetQuery.matchesEvent =
    outcome.weigh (Activity.queries .supersets)
  results : (outcome.events.map Event.results).sum = outcome.weigh Activity.results
  visited : (outcome.events.map Event.visited).sum = outcome.weigh Activity.visited

theorem Course.told [Std.TransCmp order] {request : Request α}
    {outcome : Outcome α (Reply α)} (hcourse : Course order index request outcome) :
    Told outcome := by
  cases hcourse with
  | refused | size | isEmpty => constructor <;> rfl
  | @lookedUp _ held => cases held <;> constructor <;> rfl
  | subsetsFound | supersetsFound => constructor <;> rfl
  | @inserted elements set newer actual insertion =>
      obtain ⟨node, inserted, created⟩ := insertion
      cases created with
      | zero =>
        cases inserted <;> constructor <;> rfl
      | succ created =>
        cases inserted <;> constructor <;> rfl

/-! The lines alone tell what the index holds and what its recorder has counted. -/

structure Replays (lines : List String) (index : Index α) : Prop where
  counting : index.recorder = .counting index.recorder.tally
  nodeCount : index.nodeCount = (lines.map Line.nodesCreated).sum
  size : index.size = lines.countP Pattern.stored.matchesLine
  sizes : ∃ stored, index.sets = .ok stored ∧
    (stored.map List.length).Perm (lines.filterMap Line.newSize?)
  setsAdded : index.recorder.tally.setsAdded =
    UInt64.ofNat (lines.countP Pattern.stored.matchesLine)
  duplicateAdds : index.recorder.tally.duplicateAdds =
    UInt64.ofNat (lines.countP Pattern.repeated.matchesLine)
  rejectedAdds : index.recorder.tally.rejectedAdds =
    UInt64.ofNat (lines.countP Pattern.rejected.matchesLine)
  nodesCreated : index.recorder.tally.nodesCreated =
    UInt64.ofNat (lines.map Line.nodesCreated).sum
  lookupsPerformed : index.recorder.tally.lookupsPerformed =
    UInt64.ofNat (lines.countP Pattern.lookup.matchesLine)
  lookupsPositive : index.recorder.tally.lookupsPositive =
    UInt64.ofNat (lines.countP Pattern.hit.matchesLine)
  subsetQueries : index.recorder.tally.subsetQueries =
    UInt64.ofNat (lines.countP Pattern.subsetQuery.matchesLine)
  supersetQueries : index.recorder.tally.supersetQueries =
    UInt64.ofNat (lines.countP Pattern.supersetQuery.matchesLine)
  resultsReturned : index.recorder.tally.resultsReturned =
    UInt64.ofNat (lines.map Line.results).sum
  nodesVisited : index.recorder.tally.nodesVisited =
    UInt64.ofNat (lines.map Line.visited).sum

theorem replays_metered (order : Order α) (config : Config) :
    Replays [] (metered order config) where
  counting := rfl
  nodeCount := rfl
  size := rfl
  sizes := by
    refine ⟨[], ?_, .refl _⟩
    exact Trie.shaped_empty.sequences_eq
  setsAdded := rfl
  duplicateAdds := rfl
  rejectedAdds := rfl
  nodesCreated := rfl
  lookupsPerformed := rfl
  lookupsPositive := rfl
  subsetQueries := rfl
  supersetQueries := rfl
  resultsReturned := rfl
  nodesVisited := rfl

theorem sum_append_lines {read : String → Nat} {field : Event → Nat}
    (hread : ∀ event : Event, read event.line = field event) (events : List Event) :
    ((lines ++ events.map Event.line).map read).sum =
      (lines.map read).sum + (events.map field).sum := by
  rw [List.map_append, List.sum_append_nat, List.map_map]
  exact congrArg _ (congrArg List.sum (List.map_congr_left fun event _ => hread event))

section Counter

variable {counter : Tally → UInt64} {weight : Activity → Nat} {outcome : Outcome α (Reply α)}
  {before : Nat} (hcounts : Counts counter weight)
  (hcounting : index.recorder = .counting index.recorder.tally)
include hcounting

theorem counting_settle (took : Elapsed) (outcome : Outcome α (Reply α)) :
    (index.settle took outcome).index.recorder =
      .counting (index.settle took outcome).index.recorder.tally := by
  cases hactivity : outcome.activity with
  | none => simpa only [settle, hactivity] using hcounting
  | some activity =>
      simp only [settle, hactivity]
      rw [hcounting]
      rfl

include hcounts

theorem counter_settle (took : Elapsed)
    (hbefore : counter index.recorder.tally = UInt64.ofNat before) :
    counter (index.settle took outcome).index.recorder.tally =
      UInt64.ofNat (before + outcome.weigh weight) := by
  rw [UInt64.ofNat_add, ← hbefore, Outcome.weigh]
  cases hactivity : outcome.activity with
  | none =>
      simp only [settle, hactivity]
      exact (UInt64.add_zero _).symm
  | some activity =>
      simp only [settle, hactivity]
      rw [hcounting]
      exact hcounts took activity _

/-- A counter that stands for the number of certain lines goes on to do so. -/
theorem counter_countP (took : Elapsed) {pattern : Pattern}
    (hbefore : counter index.recorder.tally = UInt64.ofNat (lines.countP pattern.matchesLine))
    (htold : outcome.events.countP pattern.matchesEvent = outcome.weigh weight) :
    counter (index.settle took outcome).index.recorder.tally =
      UInt64.ofNat ((lines ++ outcome.events.map Event.line).countP pattern.matchesLine) := by
  rw [List.countP_append, pattern.countP_line, htold]
  exact counter_settle hcounts hcounting took hbefore

/-- So does one that stands for the sum of a field. -/
theorem counter_sum (took : Elapsed) {read : String → Nat} {field : Event → Nat}
    (hread : ∀ event : Event, read event.line = field event)
    (hbefore : counter index.recorder.tally = UInt64.ofNat (lines.map read).sum)
    (htold : (outcome.events.map field).sum = outcome.weigh weight) :
    counter (index.settle took outcome).index.recorder.tally =
      UInt64.ofNat ((lines ++ outcome.events.map Event.line).map read).sum := by
  rw [sum_append_lines hread, htold]
  exact counter_settle hcounts hcounting took hbefore

end Counter

section Sound

variable [Std.TransCmp order]

/-- The size of what an addition stores stands on its line. -/
theorem Course.newSizes_perm {request : Request α} {outcome : Outcome α (Reply α)}
    (hcourse : Course order index request outcome) (hsound : Sound order config index) :
    ((outcome.trie.storedBelow Trie.root).map List.length).Perm
      ((index.trie.storedBelow Trie.root).map List.length ++
        outcome.events.filterMap Event.newSize?) := by
  cases hcourse with
  | refused | lookedUp | subsetsFound | supersetsFound | size | isEmpty =>
      exact List.Perm.of_eq (List.append_nil _).symm
  | @inserted elements set newer actual insertion hset hinsert hinserts =>
      have hsizes := (hinserts.storedBelow_perm hsound.shaped hsound.sorted).map List.length
      have hlength : actual.length = set.size := hinserts.agree.length_eq
      have hextension : (extensionEvents set insertion).filterMap Event.newSize? = [] := by
        unfold extensionEvents
        split <;> rfl
      rw [List.map_append] at hsizes
      rw [List.filterMap_append, hextension, List.nil_append, ← hlength]
      refine hsizes.trans (List.Perm.of_eq ?_)
      cases insertion.inserted <;> rfl

theorem Sound.replays_operate (hsound : Sound order config index)
    (hreplays : Replays lines index) (operation : Operation α) :
    Replays (lines ++ index.writes operation) (index.operate operation).1 := by
  cases operation with
  | sets | nodeCount | dump | check => rwa [writes, emits, List.map_nil, List.append_nil]
  | serve took request =>
      obtain ⟨hadded, hduplicate, hrejected, hcreated⟩ := counts_additions
      obtain ⟨hlookups, hhits, hsubsets, hsupersets, hresults, hvisited⟩ := counts_looks
      have hcounting := hreplays.counting
      have hcourse := hsound.course request
      have htold := hcourse.told
      have hperm := hcourse.newSizes_perm hsound
      have hshaped := (hsound.serve took request).shaped
      have hnodes := hsound.nodeCount_serve took request
      have hstored := (hsound.growth_serve took request).1
      have hoperate : (index.operate (.serve took request)).1 =
          (index.settle took (index.outcome request)).index := by
        rw [Index.operate, serve_eq]
      rw [serve_eq] at hshaped hnodes hstored
      rw [writes, emits_serve, hoperate]
      constructor
      case counting => exact counting_settle hcounting took _
      case nodeCount =>
        rw [hnodes, hreplays.nodeCount, sum_append_lines Event.nodesCreated_line,
          htold.created]
      case size =>
        rw [size, hstored, ← size, hreplays.size, List.countP_append,
          Pattern.countP_line, htold.stored]
      case sizes =>
        obtain ⟨stored, hsets, hsizes⟩ := hreplays.sizes
        rw [sets, hsound.shaped.sequences_eq] at hsets
        cases hsets
        refine ⟨_, hshaped.sequences_eq, ?_⟩
        rw [List.filterMap_append, List.filterMap_map,
          show Line.newSize? ∘ Event.line = Event.newSize? from funext Event.newSize?_line]
        exact hperm.trans (hsizes.append_right _)
      case setsAdded => exact counter_countP hadded hcounting took hreplays.setsAdded htold.stored
      case duplicateAdds =>
        exact counter_countP hduplicate hcounting took hreplays.duplicateAdds htold.repeated
      case rejectedAdds =>
        exact counter_countP hrejected hcounting took hreplays.rejectedAdds htold.refused
      case nodesCreated =>
        exact counter_sum hcreated hcounting took Event.nodesCreated_line hreplays.nodesCreated htold.created
      case lookupsPerformed =>
        exact counter_countP hlookups hcounting took hreplays.lookupsPerformed htold.lookups
      case lookupsPositive =>
        exact counter_countP hhits hcounting took hreplays.lookupsPositive htold.hits
      case subsetQueries =>
        exact counter_countP hsubsets hcounting took hreplays.subsetQueries
          htold.subsetQueries
      case supersetQueries =>
        exact counter_countP hsupersets hcounting took hreplays.supersetQueries
          htold.supersetQueries
      case resultsReturned =>
        exact counter_sum hresults hcounting took Event.results_line hreplays.resultsReturned htold.results
      case nodesVisited =>
        exact counter_sum hvisited hcounting took Event.visited_line hreplays.nodesVisited htold.visited

theorem Sound.replays (hsound : Sound order config index) (hreplays : Replays lines index)
    (operations : List (Operation α)) :
    Replays (lines ++ index.journal operations) (index.operated operations) := by
  induction operations generalizing index lines with
  | nil => rwa [journal, log, List.map_nil, List.append_nil]
  | cons operation operations induction =>
      have hlater := induction (hsound.operate operation)
        (hsound.replays_operate hreplays operation)
      rw [journal_cons]
      rwa [List.append_assoc] at hlater

theorem Sound.followed_journal (hsound : Sound order config index)
    (operations : List (Operation α)) : Followed (index.journal operations) := by
  induction operations generalizing index with
  | nil => exact followed_nil
  | cons operation operations induction =>
      rw [journal_cons]
      exact (hsound.utters operation).followed.append (induction (hsound.operate operation))

end Sound

/-- From the creation of an index on, its recorder, its sets and its nodes are what the
lines written by then tell. -/
theorem metered_replays (order : Order α) [Std.TransCmp order] (config : Config)
    (operations : List (Operation α)) :
    Replays ((metered order config).journal operations)
        ((metered order config).operated operations) ∧
      Followed ((metered order config).journal operations) ∧
      ∀ operation, Utters order ((metered order config).operated operations) operation
        (((metered order config).operated operations).writes operation) := by
  have hsound := Sound.build order config (.counting .zero)
  exact ⟨hsound.replays (replays_metered order config) operations,
    hsound.followed_journal operations, (hsound.operated operations).utters⟩

/-- Additions that make nodes, that mark a node on the way, that repeat and that are
rejected, and looks between them. -/
def loggedOperations : List (Operation Int) :=
  [.serve .zero (.add [21, 3, 14]), .serve .zero (.add [1, 33]), .serve .zero (.add [13, 11]),
    .serve .zero (.add []), .serve .zero (.contains [2]), .serve .zero .size,
    .serve .zero (.subsetsOf [1, 3, 4, 5]), .sets, .serve .zero (.supersetsOf [33])]

theorem metered_replays_loggedOperations :
    (metered Order.byLastDigit .default).journal loggedOperations =
        ["TRACE [set-trie] Extended trie nodes_created=3 depth=3",
          "DEBUG [set-trie] Added set set_size=3 inserted=true",
          "DEBUG [set-trie] Added set set_size=2 inserted=true",
          "DEBUG [set-trie] Added set set_size=2 inserted=false",
          "DEBUG [set-trie] Rejected add input_len=0 error=Invalid argument: " ++
            "set must contain at least one element",
          "DEBUG [set-trie] Lookup input_len=1 found=false",
          "DEBUG [set-trie] Containment query kind=Subsets input_len=4 results=2 " ++
            "nodes_visited=3",
          "DEBUG [set-trie] Containment query kind=Supersets input_len=1 results=2 " ++
            "nodes_visited=3"] ∧
      Replays ((metered Order.byLastDigit .default).journal loggedOperations)
        ((metered Order.byLastDigit .default).operated loggedOperations) ∧
      Followed ((metered Order.byLastDigit .default).journal loggedOperations) ∧
      ∀ operation, Utters Order.byLastDigit
        ((metered Order.byLastDigit .default).operated loggedOperations)
        operation (((metered Order.byLastDigit .default).operated loggedOperations).writes
          operation) :=
  ⟨by decide +kernel, metered_replays Order.byLastDigit .default loggedOperations⟩

end Index

end Containment
