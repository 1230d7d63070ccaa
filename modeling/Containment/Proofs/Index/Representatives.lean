import Containment.Proofs.Index.Search
import Containment.Proofs.Trie.Founders

namespace Containment.Index

variable {α : Type} {order : Order α} {config : Config} {index : Index α}

/-! Equivalent elements need not be the same, so which of them an answer shows is a
matter of the history: of the additions that were not refused. -/

/-- What was given for an addition, unless the call is none or was refused. -/
def acceptedBy (index : Index α) (call : Call α) : List (List α) :=
  match call.2 with
  | .add elements =>
      match (index.add call.1 elements).answer with
      | .ok _ => [elements]
      | .error _ => []
  | _ => []

/-- What was given for the accepted additions of a run, in their order. -/
def accepted (index : Index α) : List (Call α) → List (List α)
  | [] => []
  | call :: calls =>
      index.acceptedBy call ++ (index.serve call.1 call.2).index.accepted calls

/-- The element at a position of a sequence is that of the earliest accepted addition
whose canonical form agrees with the sequence up to and including that position, and
there it was the first of its class to be given. -/
def StemsFrom (order : Order α) (accepted : List (List α)) (keys : List α)
    (position : Nat) : Prop :=
  ∃ earlier elements later set key, accepted = earlier ++ elements :: later ∧
    Canonical.ofList? order elements = some set ∧
    order.Agree (keys.take (position + 1)) (set.elements.take (position + 1)) ∧
    (∀ other ∈ earlier, ∀ rival, Canonical.ofList? order other = some rival →
      ¬ order.Agree (keys.take (position + 1)) (rival.elements.take (position + 1))) ∧
    keys[position]? = some key ∧ set.elements[position]? = some key ∧
    order.Foremost elements key

/-! The trie is founded on the canonical forms of what was accepted. -/

def canonicalForms (order : Order α) (accepted : List (List α)) : List (List α) :=
  accepted.map (Canonical.arrange order)

theorem acceptedBy_of_refused {took : Elapsed} {trie : Trie α} {elements : List α}
    {reason : Refusal} (haddition : index.addition elements = .refused trie elements reason) :
    index.acceptedBy (took, .add elements) = [] := by
  have hanswer : (index.add took elements).answer = .error (.refused reason) :=
    congrArg Outcome.answer haddition
  simp only [acceptedBy, hanswer]

theorem acceptedBy_of_answered {took : Elapsed} {elements : List α} {inserted : Bool}
    (hanswer : (index.addition elements).answer = .ok inserted) :
    index.acceptedBy (took, .add elements) = [elements] := by
  have hadd : (index.add took elements).answer = .ok inserted := hanswer
  simp only [acceptedBy, hadd]

theorem acceptedBy_ne_nil {call : Call α} {elements : List α}
    (helements : elements ∈ index.acceptedBy call) : elements ≠ [] := by
  obtain ⟨took, request⟩ := call
  cases request with
  | contains | subsetsOf | supersetsOf | size | isEmpty => cases helements
  | add given =>
      unfold acceptedBy at helements
      dsimp only at helements
      split at helements
      case h_1 inserted hanswer =>
        obtain ⟨set, _, _, hset, _⟩ := exists_insertion hanswer
        rw [List.mem_singleton.mp helements]
        exact (Canonical.elements_of_ofList? hset).1
      case h_2 => cases helements

theorem accepted_ne_nil {calls : List (Call α)} {elements : List α}
    (helements : elements ∈ index.accepted calls) : elements ≠ [] := by
  induction calls generalizing index with
  | nil => cases helements
  | cons call calls induction =>
      rcases List.mem_append.mp helements with hfirst | hlater
      · exact acceptedBy_ne_nil hfirst
      · exact induction hlater

section Founded

variable [Std.TransCmp order]

theorem Sound.founded_serve (hsound : Sound order config index) {history : List (List α)}
    (hfounded : Trie.Founded order history index.trie) (call : Call α) :
    Trie.Founded order (history ++ canonicalForms order (index.acceptedBy call))
      (index.serve call.1 call.2).index.trie := by
  obtain ⟨took, request⟩ := call
  rw [trie_serve]
  cases request with
  | contains | subsetsOf | supersetsOf | size | isEmpty =>
      rwa [acceptedBy, canonicalForms, List.map_nil, List.append_nil]
  | add elements =>
      change Trie.Founded order _ (index.addition elements).trie
      rcases hsound.addition_answer elements with ⟨reason, haddition⟩ | ⟨inserted, hanswer⟩
      · rw [acceptedBy_of_refused haddition, haddition, canonicalForms, List.map_nil,
          List.append_nil]
        exact hfounded
      · obtain ⟨set, insertion, newer, actual, hset, _, hinsert, hinserts, haddition⟩ :=
          hsound.exists_inserts hanswer
        rw [acceptedBy_of_answered hanswer, haddition, canonicalForms, List.map_singleton,
          ← (Canonical.elements_of_ofList? hset).2]
        exact hfounded.insert hsound.shaped hinserts hinsert

theorem Sound.founded_after (hsound : Sound order config index) {history : List (List α)}
    (hfounded : Trie.Founded order history index.trie) (calls : List (Call α)) :
    Trie.Founded order (history ++ canonicalForms order (index.accepted calls))
      (index.after calls).trie := by
  induction calls generalizing index history with
  | nil => rwa [accepted, canonicalForms, List.map_nil, List.append_nil]
  | cons call calls induction =>
      have hlater := induction (hsound.serve call.1 call.2) (hsound.founded_serve hfounded call)
      rwa [List.append_assoc, canonicalForms, canonicalForms, ← List.map_append] at hlater

/-- In a founded trie the elements of a stored sequence stem from the history. -/
theorem stemsFrom_of_founded {trie : Trie α} {accepted : List (List α)}
    (hfounded : Trie.Founded order (canonicalForms order accepted) trie)
    (hnonempty : ∀ elements ∈ accepted, elements ≠ []) {keys : List α}
    (hstores : trie.Stores keys) {position : Nat} (hposition : position < keys.length) :
    StemsFrom order accepted keys position := by
  obtain ⟨_, _, hleads, _⟩ := hstores
  have hsplit : keys.take (position + 1) = keys.take position ++ [keys[position]] := by
    rw [List.take_add_one, List.getElem?_eq_getElem hposition]
    rfl
  have hlength : (keys.take position).length = position := by
    rw [List.length_take]
    exact Nat.min_eq_left (Nat.le_of_lt hposition)
  rw [← List.take_append_drop (position + 1) keys, hsplit] at hleads
  obtain ⟨middle, hway, _⟩ := hleads.split
  obtain ⟨front, form, back, hhistory, hkey, hagree, hfirst⟩ :=
    hfounded.founder _ _ _ hway
  rw [hlength] at hkey hagree hfirst
  rw [← hsplit] at hagree hfirst
  obtain ⟨earlier, rest, rfl, rfl, hrest⟩ := List.map_eq_append_iff.mp hhistory
  obtain ⟨elements, later, rfl, rfl, rfl⟩ := List.map_eq_cons_iff.mp hrest
  have hne := hnonempty elements (List.mem_append_right earlier List.mem_cons_self)
  obtain ⟨set, hset, _⟩ := Canonical.ofList?_presents order hne
  have helements := (Canonical.elements_of_ofList? hset).2
  refine ⟨earlier, elements, later, set, keys[position], rfl, hset, helements ▸ hagree, ?_,
    List.getElem?_eq_getElem hposition, helements ▸ hkey,
    Canonical.foremost_of_mem_arrange (List.mem_of_getElem? hkey)⟩
  intro other hother rival hrival
  rw [(Canonical.elements_of_ofList? hrival).2]
  exact hfirst _ (List.mem_map_of_mem hother)

end Founded

/-! The answers that list sequences, now and later in the run. -/

/-- Each sequence of an answer stems from what was accepted until then, element by
element, and the same answer later has it unchanged. -/
def Lasting (order : Order α) (accepted : List (List α)) {ε : Type}
    (now later : Except ε (List (List α))) : Prop :=
  ∃ found foundLater, now = .ok found ∧ later = .ok foundLater ∧
    ∀ keys ∈ found, keys ∈ foundLater ∧
      ∀ position, position < keys.length → StemsFrom order accepted keys position

structure ShowsFounders (order : Order α) (accepted : List (List α))
    (index later : Index α) : Prop where
  sets : Lasting order accepted index.sets later.sets
  subsets : ∀ took query, Lasting order accepted (index.subsetsOf took query).answer
    (later.subsetsOf took query).answer
  supersets : ∀ took query, Lasting order accepted (index.supersetsOf took query).answer
    (later.supersetsOf took query).answer

variable [Std.TransCmp order]

private theorem Sound.query_lasting {later : Index α} {accepted : List (List α)}
    (hsound : Sound order config index) (hlater : Sound order config later)
    (hkept : ∀ keys, index.trie.Stores keys → later.trie.Stores keys)
    (hstems : ∀ keys, index.trie.Stores keys →
      ∀ position, position < keys.length → StemsFrom order accepted keys position)
    (direction : Direction) (took : Elapsed) (query : List α) :
    Lasting order accepted (index.settle took (index.query direction query)).answer
      (later.settle took (later.query direction query)).answer := by
  obtain ⟨findings, hsearch, hperm⟩ := hsound.search_perm direction query
  obtain ⟨laterFindings, hlaterSearch, hlaterPerm⟩ := hlater.search_perm direction query
  refine ⟨findings.sets, laterFindings.sets, query_answer hsearch, query_answer hlaterSearch, ?_⟩
  intro keys hkeys
  obtain ⟨hlisted, hselects⟩ := List.mem_filter.mp (hperm.mem_iff.mp hkeys)
  have hstores := hsound.shaped.mem_storedBelow_root_iff.mp hlisted
  have hlaterListed := hlater.shaped.mem_storedBelow_root_iff.mpr (hkept keys hstores)
  exact ⟨hlaterPerm.mem_iff.mpr (List.mem_filter.mpr ⟨hlaterListed, hselects⟩),
    hstems keys hstores⟩

/-- After any run every listed sequence shows, at each position, the element that the
earliest accepted addition brought there; what comes later does not change it. -/
theorem run_showsFounders (order : Order α) [Std.TransCmp order] (config : Config)
    (recorder : Recorder) (calls more : List (Call α)) :
    ShowsFounders order
      (((Index.build order config).withRecorder recorder).accepted calls)
      (run order config recorder calls) ((run order config recorder calls).after more) := by
  have hsound := run_sound order config recorder calls
  have hlater := hsound.after more
  have hfounded := (Sound.build order config recorder).founded_after
    Trie.founded_empty calls
  rw [List.nil_append] at hfounded
  have hkept : ∀ keys, (run order config recorder calls).trie.Stores keys →
      ((run order config recorder calls).after more).trie.Stores keys :=
    fun _ hstores => hsound.stores_after more hstores
  have hstems : ∀ keys, (run order config recorder calls).trie.Stores keys →
      ∀ position, position < keys.length → StemsFrom order
        (((Index.build order config).withRecorder recorder).accepted calls) keys position :=
    fun _ hstores _ hposition =>
      stemsFrom_of_founded hfounded (fun _ => accepted_ne_nil) hstores hposition
  refine ⟨?_, hsound.query_lasting hlater hkept hstems .subsets,
    hsound.query_lasting hlater hkept hstems .supersets⟩
  refine ⟨_, _, hsound.shaped.sequences_eq, hlater.shaped.sequences_eq, ?_⟩
  intro keys hkeys
  have hstores := hsound.shaped.mem_storedBelow_root_iff.mp hkeys
  exact ⟨hlater.shaped.mem_storedBelow_root_iff.mpr (hkept keys hstores), hstems keys hstores⟩

/-- The second set is made of elements from two additions. -/
def blendedCalls : List (Call Int) :=
  [(.zero, .add [11]), (.zero, .add []), (.zero, .add [23, 1, 3]), (.zero, .add [33, 31])]

theorem run_showsFounders_blendedCalls :
    (run Order.byLastDigit .default .silent blendedCalls).sets = .ok [[11], [11, 23]] ∧
      ShowsFounders Order.byLastDigit
        (((Index.build Order.byLastDigit .default).withRecorder .silent).accepted blendedCalls)
        (run Order.byLastDigit .default .silent blendedCalls)
        ((run Order.byLastDigit .default .silent blendedCalls).after digitCalls) :=
  ⟨by decide +kernel,
    run_showsFounders Order.byLastDigit .default .silent blendedCalls digitCalls⟩

end Containment.Index
