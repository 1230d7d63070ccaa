import Containment.Proofs.Index.Session

namespace Containment

variable {α : Type} {order : Order α} {config : Config}

/-! Two ends of the same additions. What the callers see of them is the same but for
the order of listings, for which of several equivalent elements stands in a set, and
for the times. -/

/-- Where equivalent elements are identical there is less to tell the ends apart by. -/
structure Coincide (left right : Index α) : Prop where
  sets_eq : ∃ stored, left.sets = .ok stored ∧ right.sets = .ok stored
  subsetsOf_perm : ∀ took query, ∃ lefts rights,
    (left.subsetsOf took query).answer = .ok lefts ∧
      (right.subsetsOf took query).answer = .ok rights ∧ lefts.Perm rights
  supersetsOf_perm : ∀ took query, ∃ lefts rights,
    (left.supersetsOf took query).answer = .ok lefts ∧
      (right.supersetsOf took query).answer = .ok rights ∧ lefts.Perm rights
  dump_eq : ∀ spell, ∃ text, left.dump spell = .ok text ∧ right.dump spell = .ok text

structure Converge (order : Order α) (left right : Served α) : Prop where
  answers_perm : left.answers.Perm right.answers
  unbroken : ∀ fault, .error (.broken fault) ∉ left.answers
  size_eq : left.index.size = right.index.size
  nodeCount_eq : left.index.nodeCount = right.index.nodeCount
  contains_eq : ∀ took elements, ∃ held,
    (left.index.contains took elements).answer = .ok held ∧
      (right.index.contains took elements).answer = .ok held
  subsetsOf_same : ∀ took query, ∃ lefts rights,
    (left.index.subsetsOf took query).answer = .ok lefts ∧
      (right.index.subsetsOf took query).answer = .ok rights ∧ SameSets order lefts rights
  supersetsOf_same : ∀ took query, ∃ lefts rights,
    (left.index.supersetsOf took query).answer = .ok lefts ∧
      (right.index.supersetsOf took query).answer = .ok rights ∧ SameSets order lefts rights
  setsAdded_eq :
    left.index.recorder.tally.setsAdded = right.index.recorder.tally.setsAdded
  duplicateAdds_eq :
    left.index.recorder.tally.duplicateAdds = right.index.recorder.tally.duplicateAdds
  rejectedAdds_eq :
    left.index.recorder.tally.rejectedAdds = right.index.recorder.tally.rejectedAdds
  nodesCreated_eq :
    left.index.recorder.tally.nodesCreated = right.index.recorder.tally.nodesCreated
  coincide : (∀ first second, order first second = .eq → first = second) →
    Coincide left.index right.index

section Identical

variable [Std.TransCmp order] {left right : Index α} (hleft : Index.Sound order config left)
  (hright : Index.Sound order config right) (halike : Trie.Alike order left.trie right.trie)
  (hidentical : ∀ first second, order first second = .eq → first = second)
include hleft hright halike hidentical

private theorem search_same_perm (direction : Direction) (took : Elapsed) (query : List α) :
    ∃ lefts rights, (left.settle took (left.query direction query)).answer = .ok lefts ∧
      (right.settle took (right.query direction query)).answer = .ok rights ∧
      lefts.Perm rights := by
  obtain ⟨lefts, rights, hlefts, hrights, hsame⟩ :=
    hleft.search_sameSets hright halike direction took query
  exact ⟨lefts, rights, hlefts, hrights, hsame.perm hidentical⟩

theorem Index.Sound.coincide : Coincide left right where
  sets_eq := by
    have hstored := Order.eq_of_forall₂_agree hidentical halike.storedBelow
    exact ⟨_, hleft.shaped.sequences_eq, hstored ▸ hright.shaped.sequences_eq⟩
  subsetsOf_perm := search_same_perm hleft hright halike hidentical .subsets
  supersetsOf_perm := search_same_perm hleft hright halike hidentical .supersets
  dump_eq := by
    intro spell
    have htext := hleft.shaped.dump_eq spell
    exact ⟨_, htext, (halike.dump_eq hidentical spell).symm.trans htext⟩

end Identical

/-! Sessions that are done. -/

namespace Session

variable [Std.TransCmp order] {initial : Index α} {family : Family order}

namespace Progress

section Done

variable {groups : List (List (List α))} {session : Session α} {served : List (List α)}
  {done : List Activity} {counted : List (Elapsed × Activity)}

theorem served_perm_of_done
    (hprogress : Progress order config initial family groups session served done counted)
    (hdone : session.Done) : served.Perm groups.flatten := by
  have hperm := hprogress.served_perm
  rwa [hdone.1, List.append_nil] at hperm

theorem counted_perm_of_done
    (hprogress : Progress order config initial family groups session served done counted)
    (hdone : session.Done) : (counted.map Prod.snd).Perm done := by
  have hperm := hprogress.counted_perm
  rwa [hdone.2, List.append_nil] at hperm

theorem unbroken
    (hprogress : Progress order config initial family groups session served done counted)
    (fault : Fault) : .error (.broken fault) ∉ session.answers := by
  rw [hprogress.answers_eq, List.mem_map]
  intro hbroken
  obtain ⟨answer, _, heq⟩ := hbroken
  cases answer <;> cases heq

end Done

variable {groups others : List (List (List α))} {left right : Session α}
  {leftServed rightServed : List (List α)} {leftDone rightDone : List Activity}
  {leftCounted rightCounted : List (Elapsed × Activity)}

theorem counter_eq
    (hleft : Progress order config initial family groups left leftServed leftDone leftCounted)
    (hright :
      Progress order config initial family others right rightServed rightDone rightCounted)
    (hleftDone : left.Done) (hrightDone : right.Done) {counter : Tally → UInt64}
    {weight : Activity → Nat} (hcounts : Counts counter weight)
    (htotal : totalOf weight leftDone = totalOf weight rightDone) :
    counter left.index.recorder.tally = counter right.index.recorder.tally := by
  rw [hleft.recorder_eq, hright.recorder_eq]
  apply hcounts.recordAll_eq
  rw [totalOf_perm weight (hleft.counted_perm_of_done hleftDone),
    totalOf_perm weight (hright.counted_perm_of_done hrightDone), htotal]

theorem converge
    (hleft : Progress order config initial family groups left leftServed leftDone leftCounted)
    (hright :
      Progress order config initial family others right rightServed rightDone rightCounted)
    (hgroups : groups.flatten.Perm others.flatten)
    (hleftDone : left.Done) (hrightDone : right.Done) :
    Converge order left.toServed right.toServed := by
  have hserved : leftServed.Perm rightServed :=
    (hleft.served_perm_of_done hleftDone).trans
      (hgroups.trans (hright.served_perm_of_done hrightDone).symm)
  obtain ⟨hanswers, hfamily⟩ :=
    Family.addEach_perm config.maxSetSize.toNat hserved family
  have hperm : left.answers.Perm right.answers := by
    rw [hleft.answers_eq, hright.answers_eq]
    exact hanswers.map _
  have hrepresents := hright.represents
  rw [← hfamily] at hrepresents
  have halike := hleft.sound.alike hright.sound hleft.represents hrepresents
  have hcreated : totalOf Activity.created leftDone = totalOf Activity.created rightDone := by
    have hsize := halike.size_eq
    rw [hleft.size_eq, hright.size_eq] at hsize
    exact Nat.add_left_cancel hsize
  obtain ⟨hstored, hrepeated, hrefused, hmade⟩ := counts_additions
  have hcounter : ∀ counter weight, Counts counter weight →
      totalOf weight leftDone = totalOf weight rightDone →
        counter left.index.recorder.tally = counter right.index.recorder.tally :=
    fun _ _ => hleft.counter_eq hright hleftDone hrightDone
  have htotal : ∀ weight : Activity → Nat,
      (∀ nodesCreated answer,
        weight (.answering nodesCreated answer) = weight (.answering 0 answer)) →
        totalOf weight leftDone = totalOf weight rightDone :=
    fun _ hweight =>
      totalOf_eq_of_answers hweight hleft.done_answers hright.done_answers hperm
  exact
    { answers_perm := hperm
      unbroken := hleft.unbroken
      size_eq := hleft.represents.stored_eq.trans hrepresents.stored_eq.symm
      nodeCount_eq := congrArg (· - 1) halike.size_eq
      contains_eq :=
        hleft.sound.contains_same hright.sound hleft.represents hrepresents
      subsetsOf_same := hleft.sound.search_sameSets hright.sound halike .subsets
      supersetsOf_same := hleft.sound.search_sameSets hright.sound halike .supersets
      setsAdded_eq := hcounter _ _ hstored (htotal _ fun nodesCreated answer => by
        rcases answer with _ | _ | _ <;> rfl)
      duplicateAdds_eq := hcounter _ _ hrepeated (htotal _ fun nodesCreated answer => by
        rcases answer with _ | _ | _ <;> rfl)
      rejectedAdds_eq := hcounter _ _ hrefused (htotal _ fun nodesCreated answer => by
        rcases answer with _ | _ | _ <;> rfl)
      nodesCreated_eq := hcounter _ _ hmade hcreated
      coincide := hleft.sound.coincide hright.sound halike }

end Progress

end Session

namespace Index

/-- Whoever asks for the additions, and in whichever order they get through, sessions
with the same additions converge, with one another and with the same additions in turn. -/
theorem run_sessions_converge (order : Order α) [Std.TransCmp order] (config : Config)
    (recorder : Recorder) (calls : List (Call α)) {groups others : List (List (List α))}
    {turns otherTurns : List Turn} (hgroups : groups.flatten.Perm others.flatten)
    (hdone : ((Session.start (run order config recorder calls) groups).after turns).Done)
    (hotherDone :
      ((Session.start (run order config recorder calls) others).after otherTurns).Done) :
    Converge order
        ((Session.start (run order config recorder calls) groups).after turns).toServed
        ((Session.start (run order config recorder calls) others).after otherTurns).toServed ∧
      ∀ requests : List (Elapsed × List α),
        groups.flatten.Perm (requests.map Prod.snd) →
        Converge order
          ((Session.start (run order config recorder calls) groups).after turns).toServed
          ((run order config recorder calls).addInTurn requests) := by
  have hsound := run_sound order config recorder calls
  have hrepresents := run_represents order config recorder calls
  obtain ⟨_, _, _, hprogress⟩ :=
    (Session.Progress.start hsound hrepresents groups).after turns
  obtain ⟨_, _, _, hotherProgress⟩ :=
    (Session.Progress.start hsound hrepresents others).after otherTurns
  refine ⟨hprogress.converge hotherProgress hgroups hdone hotherDone, ?_⟩
  intro requests hrequests
  obtain ⟨hturnsDone, hserved⟩ :=
    Session.addInTurn_eq (run order config recorder calls) requests
  obtain ⟨_, _, _, hturnsProgress⟩ :=
    (Session.Progress.start hsound hrepresents [requests.map Prod.snd]).after
      (Session.turnsInTurn requests)
  rw [← hserved]
  refine hprogress.converge hturnsProgress ?_ hdone hturnsDone
  rwa [List.flatten_singleton]

/-! Two sessions that bring the same lists to the same index; in the second other
elements stand for the classes. -/

def digitGroups : List (List (List Int)) :=
  [[[25, 7, 13], []], [[37, 5], [3, 15, 17]]]

def regroupedDigits : List (List (List Int)) :=
  [[[3, 15, 17]], [[37, 5], [25, 7, 13], []]]

def digitTurns : List Turn :=
  [.access 0, .access 1, .count 1 .zero, .access 1, .access 0, .count 2 .zero, .count 0 .zero,
    .count 0 .zero]

def regroupedTurns : List Turn :=
  [.access 1, .access 0, .count 0 .zero, .count 0 .zero, .access 1, .access 1, .count 1 .zero,
    .count 0 .zero]

def digitSession : Session Int :=
  (Session.start (run Order.byLastDigit .default (.counting .zero) digitCalls)
    digitGroups).after digitTurns

def regroupedSession : Session Int :=
  (Session.start (run Order.byLastDigit .default (.counting .zero) digitCalls)
    regroupedDigits).after regroupedTurns

theorem run_sessions_converge_digitGroups :
    digitGroups.flatten.Perm regroupedDigits.flatten ∧ digitSession.Done ∧
      regroupedSession.Done ∧ digitSession.index.sets ≠ regroupedSession.index.sets ∧
      Converge Order.byLastDigit digitSession.toServed regroupedSession.toServed ∧
      ∀ requests : List (Elapsed × List Int),
        digitGroups.flatten.Perm (requests.map Prod.snd) →
        Converge Order.byLastDigit digitSession.toServed
          ((run Order.byLastDigit .default (.counting .zero) digitCalls).addInTurn requests) := by
  have hgroups : digitGroups.flatten.Perm regroupedDigits.flatten := by decide +kernel
  have hdone : digitSession.Done := by decide +kernel
  have hotherDone : regroupedSession.Done := by decide +kernel
  exact ⟨hgroups, hdone, hotherDone, by decide +kernel,
    run_sessions_converge Order.byLastDigit .default (.counting .zero) digitCalls hgroups
      hdone hotherDone⟩

end Index

end Containment
