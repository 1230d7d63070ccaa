import Containment.Proofs.Index.Confluence
import Containment.Proofs.Tally
import Containment.Proofs.Trie.Founders

namespace Containment

variable {α : Type} {order : Order α} {config : Config}

/-! An index and what it has answered to additions. -/

structure Served (α : Type) where
  index : Index α
  answers : List (Except Failure Bool)

namespace Served

def start (index : Index α) : Served α :=
  { index, answers := [] }

/-- One more addition, which is counted before the next begins. -/
def add (served : Served α) (took : Elapsed) (elements : List α) : Served α :=
  let performed := served.index.add took elements
  { index := performed.index, answers := served.answers ++ [performed.answer] }

end Served

/-- Additions in turn, each with the time it takes. -/
def Index.addInTurn (index : Index α) (requests : List (Elapsed × List α)) : Served α :=
  requests.foldl (fun served request => served.add request.1 request.2) (.start index)

/-! Callers that add at the same time. The trie is behind a lock, so that each of them
has it for the whole of an insertion; the counters are not, so that an activity is
counted at any time after it. -/

structure Session (α : Type) extends Served α where
  /-- What each caller has still to add. -/
  waiting : List (List (List α))
  uncounted : List Activity

inductive Turn where
  | access (caller : Nat)
  | count (entry : Nat) (took : Elapsed)
deriving DecidableEq

namespace Session

def start (index : Index α) (groups : List (List (List α))) : Session α :=
  { index, answers := [], waiting := groups, uncounted := [] }

/-- The next addition of a caller, up to where it is counted. -/
def access (session : Session α) (caller : Nat) : Session α :=
  match session.waiting[caller]? with
  | some (elements :: rest) =>
      let outcome := session.index.addition elements
      { index := { session.index with trie := outcome.trie }
        answers := session.answers ++ [outcome.answer]
        waiting := session.waiting.set caller rest
        uncounted := session.uncounted ++ outcome.activity.toList }
  | _ => session

def count (session : Session α) (entry : Nat) (took : Elapsed) : Session α :=
  match session.uncounted[entry]? with
  | some activity =>
      { session with
        index := { session.index with
          recorder := session.index.recorder.record took activity }
        uncounted := session.uncounted.eraseIdx entry }
  | none => session

/-- A turn that cannot be taken changes nothing. -/
def take (session : Session α) : Turn → Session α
  | .access caller => session.access caller
  | .count entry took => session.count entry took

def after (session : Session α) (turns : List Turn) : Session α :=
  turns.foldl take session

/-- Every caller is through and everything is counted. -/
def Done (session : Session α) : Prop :=
  session.waiting.flatten = [] ∧ session.uncounted = []

instance (session : Session α) : Decidable session.Done :=
  inferInstanceAs (Decidable (session.waiting.flatten = [] ∧ session.uncounted = []))

theorem after_append (session : Session α) (front back : List Turn) :
    session.after (front ++ back) = (session.after front).after back :=
  List.foldl_append

/-! What one turn does. -/

theorem access_cases (session : Session α) (caller : Nat) :
    session.access caller = session ∨
      ∃ elements rest, session.waiting[caller]? = some (elements :: rest) ∧
        session.access caller =
          { index := { session.index with trie := (session.index.addition elements).trie }
            answers := session.answers ++ [(session.index.addition elements).answer]
            waiting := session.waiting.set caller rest
            uncounted :=
              session.uncounted ++ (session.index.addition elements).activity.toList } := by
  unfold access
  split
  case h_1 elements rest hwaiting => exact Or.inr ⟨elements, rest, hwaiting, rfl⟩
  case h_2 => exact Or.inl rfl

theorem count_cases (session : Session α) (entry : Nat) (took : Elapsed) :
    session.count entry took = session ∨
      ∃ activity, session.uncounted[entry]? = some activity ∧
        session.count entry took =
          { session with
            index := { session.index with
              recorder := session.index.recorder.record took activity }
            uncounted := session.uncounted.eraseIdx entry } := by
  unfold count
  split
  case h_1 activity huncounted => exact Or.inr ⟨activity, huncounted, rfl⟩
  case h_2 => exact Or.inl rfl

private theorem flatten_set_perm {waiting : List (List (List α))} {caller : Nat}
    {elements : List α} {rest : List (List α)}
    (hwaiting : waiting[caller]? = some (elements :: rest)) :
    waiting.flatten.Perm (elements :: (waiting.set caller rest).flatten) := by
  induction waiting generalizing caller with
  | nil => cases hwaiting
  | cons first more induction =>
      cases caller with
      | zero =>
          cases hwaiting
          exact List.Perm.refl _
      | succ caller =>
          have hmore := induction hwaiting
          simp only [List.set_cons_succ, List.flatten_cons]
          exact (hmore.append_left first).trans List.perm_middle

private def work (session : Session α) : Nat :=
  2 * session.waiting.flatten.length + session.uncounted.length

/-- There is a turn to take as long as something is left to do. -/
private theorem exists_turn_work_lt (session : Session α) (hdone : ¬ session.Done) :
    ∃ turn, (session.take turn).work < session.work := by
  cases huncounted : session.uncounted with
  | cons activity more =>
      refine ⟨.count 0 .zero, ?_⟩
      have htake : session.take (.count 0 .zero) =
          { session with
            index := { session.index with
              recorder := session.index.recorder.record .zero activity }
            uncounted := more } := by
        simp [take, count, huncounted]
      rw [htake, work, work, huncounted, List.length_cons]
      exact Nat.lt_succ_self _
  | nil =>
      have hwaiting : session.waiting.flatten ≠ [] := fun hnil => hdone ⟨hnil, huncounted⟩
      obtain ⟨elements, helements⟩ := List.exists_mem_of_ne_nil _ hwaiting
      obtain ⟨group, hgroup, hmember⟩ := List.mem_flatten.mp helements
      obtain ⟨caller, hcaller⟩ := List.mem_iff_getElem?.mp hgroup
      obtain ⟨first, rest, rfl⟩ := List.exists_cons_of_ne_nil (List.ne_nil_of_mem hmember)
      refine ⟨.access caller, ?_⟩
      have hlength := (flatten_set_perm hcaller).length_eq
      have hactivity : (session.index.addition first).activity.toList.length ≤ 1 := by
        cases (session.index.addition first).activity <;> simp
      rw [List.length_cons] at hlength
      simp only [take, access, hcaller, work, huncounted, List.nil_append, List.length_nil]
      omega

/-- A session can always be brought to its end. -/
theorem exists_turns_done (session : Session α) : ∃ turns, (session.after turns).Done := by
  induction hwork : session.work using Nat.strongRecOn generalizing session with
  | _ amount induction =>
      by_cases hdone : session.Done
      · exact ⟨[], hdone⟩
      · obtain ⟨turn, hless⟩ := session.exists_turn_work_lt hdone
        rw [hwork] at hless
        obtain ⟨turns, hturns⟩ := induction _ hless (session.take turn) rfl
        exact ⟨turn :: turns, hturns⟩

/-! Additions in turn are a session of one caller who counts at once. -/

def turnsInTurn (requests : List (Elapsed × List α)) : List Turn :=
  requests.flatMap fun request => [.access 0, .count 0 request.1]

private theorem take_add (served : Served α) (took : Elapsed) (elements : List α)
    (rest : List (List α)) :
    (({ toServed := served, waiting := [elements :: rest], uncounted := [] } :
        Session α).access 0).count 0 took =
      { toServed := served.add took elements, waiting := [rest], uncounted := [] } := by
  unfold access count Served.add Index.add Index.settle
  cases hactivity : (served.index.addition elements).activity <;>
    simp [hactivity]

private theorem after_turnsInTurn (served : Served α) (requests : List (Elapsed × List α)) :
    ({ toServed := served, waiting := [requests.map Prod.snd], uncounted := [] } :
        Session α).after (turnsInTurn requests) =
      { toServed := requests.foldl (fun served request => served.add request.1 request.2) served
        waiting := [[]]
        uncounted := [] } := by
  induction requests generalizing served with
  | nil => rfl
  | cons request requests induction =>
      rw [turnsInTurn, List.flatMap_cons, after_append, ← turnsInTurn, List.foldl_cons,
        ← induction (served.add request.1 request.2), ← take_add]
      rfl

theorem addInTurn_eq (index : Index α) (requests : List (Elapsed × List α)) :
    ((start index [requests.map Prod.snd]).after (turnsInTurn requests)).Done ∧
      ((start index [requests.map Prod.snd]).after (turnsInTurn requests)).toServed =
        index.addInTurn requests := by
  have hafter := after_turnsInTurn (.start index) requests
  have hstart : start index [requests.map Prod.snd] =
      { toServed := .start index, waiting := [requests.map Prod.snd], uncounted := [] } := rfl
  rw [hstart, hafter]
  exact ⟨⟨rfl, rfl⟩, rfl⟩

end Session

/-! What an addition does, for the accounts: one activity, which tells the answer and
the number of nodes that were made. -/

def Activity.answering (nodesCreated : Nat) : Except Failure Bool → Activity
  | .ok inserted => .added inserted nodesCreated
  | .error _ => .rejected

def Activity.Answers (activity : Activity) (answer : Except Failure Bool) : Prop :=
  ∃ nodesCreated, activity = .answering nodesCreated answer

theorem Index.Sound.exists_activity [Std.TransCmp order] {index : Index α}
    (hsound : Index.Sound order config index) (elements : List α) :
    ∃ activity, (index.addition elements).activity = some activity ∧
      activity.Answers (index.addition elements).answer ∧
      (index.addition elements).trie.nodes.size =
        index.trie.nodes.size + activity.created := by
  rcases hsound.addition_answer elements with ⟨reason, haddition⟩ | ⟨inserted, hanswer⟩
  · rw [haddition]
    exact ⟨.rejected, rfl, ⟨0, rfl⟩, rfl⟩
  · obtain ⟨_, insertion, _, _, _, _, hinsert, _, haddition⟩ := hsound.exists_inserts hanswer
    rw [haddition]
    exact ⟨_, rfl, ⟨insertion.created, rfl⟩, hsound.shaped.insertPath_size hinsert⟩

/-- What counts the same for all numbers of nodes counts the answers. -/
theorem totalOf_eq_of_answers {weight : Activity → Nat}
    (hweight : ∀ nodesCreated answer,
      weight (.answering nodesCreated answer) = weight (.answering 0 answer))
    {lefts rights : List Activity} {leftAnswers rightAnswers : List (Except Failure Bool)}
    (hleft : List.Forall₂ Activity.Answers lefts leftAnswers)
    (hright : List.Forall₂ Activity.Answers rights rightAnswers)
    (hperm : leftAnswers.Perm rightAnswers) : totalOf weight lefts = totalOf weight rights := by
  have hshare : ∀ activities answers, List.Forall₂ Activity.Answers activities answers →
      totalOf weight activities = totalOf weight (answers.map (Activity.answering 0)) := by
    intro activities answers hanswers
    induction hanswers with
    | nil => rfl
    | cons hanswer _ induction =>
        obtain ⟨nodesCreated, rfl⟩ := hanswer
        rw [List.map_cons, totalOf_cons, totalOf_cons, hweight, induction]
  rw [hshare lefts _ hleft, hshare rights _ hright]
  exact totalOf_perm weight (hperm.map _)

/-! How far a session has come: which lists were served, in which order, what was done
for each of them, and what of that is counted. -/

structure Session.Progress (order : Order α) [Std.TransCmp order] (config : Config)
    (initial : Index α) (family : Family order) (groups : List (List (List α)))
    (session : Session α) (served : List (List α)) (done : List Activity)
    (counted : List (Elapsed × Activity)) : Prop where
  sound : Index.Sound order config session.index
  served_perm : (served ++ session.waiting.flatten).Perm groups.flatten
  represents : Represents session.index.trie
    (family.addEach config.maxSetSize.toNat served).2
  answers_eq : session.answers =
    (family.addEach config.maxSetSize.toNat served).1.map (Except.mapError .refused)
  done_answers : List.Forall₂ Activity.Answers done session.answers
  size_eq : session.index.trie.nodes.size =
    initial.trie.nodes.size + totalOf Activity.created done
  recorder_eq : session.index.recorder = initial.recorder.recordAll counted
  counted_perm : (counted.map Prod.snd ++ session.uncounted).Perm done

namespace Session

variable {initial : Index α} {groups : List (List (List α))} {session : Session α}

variable [Std.TransCmp order] {family : Family order} {served : List (List α)}
  {done : List Activity} {counted : List (Elapsed × Activity)}

namespace Progress

theorem start {index : Index α} (hsound : Index.Sound order config index)
    (hrepresents : Represents index.trie family) (groups : List (List (List α))) :
    Progress order config index family groups (.start index groups) [] [] [] where
  sound := hsound
  served_perm := List.Perm.refl _
  represents := hrepresents
  answers_eq := rfl
  done_answers := .nil
  size_eq := rfl
  recorder_eq := rfl
  counted_perm := .nil

theorem access (hprogress : Progress order config initial family groups session served done counted)
    (caller : Nat) :
    ∃ served done, Progress order config initial family groups (session.access caller)
      served done counted := by
  rcases session.access_cases caller with heq | ⟨elements, rest, hwaiting, heq⟩
  · exact ⟨served, done, by rwa [heq]⟩
  obtain ⟨activity, hactivity, hanswers, hsize⟩ := hprogress.sound.exists_activity elements
  obtain ⟨hanswer, hnewer⟩ := hprogress.sound.addition_simulates hprogress.represents elements
  refine ⟨served ++ [elements], done ++ [activity], ?_⟩
  rw [heq]
  exact
    { sound := (hprogress.sound.serve .zero (.add elements)).of_trie rfl rfl rfl
      served_perm := by
        rw [List.append_assoc]
        exact ((flatten_set_perm hwaiting).symm.append_left served).trans
          hprogress.served_perm
      represents := by
        rw [Family.addEach_append]
        exact hnewer
      answers_eq := by
        rw [Family.addEach_append, List.map_append, ← hprogress.answers_eq, hanswer]
        rfl
      done_answers := List.rel_append hprogress.done_answers (.cons hanswers .nil)
      size_eq := by
        rw [totalOf_append, ← Nat.add_assoc, ← hprogress.size_eq, hsize]
        rfl
      recorder_eq := hprogress.recorder_eq
      counted_perm := by
        rw [hactivity, ← List.append_assoc]
        exact hprogress.counted_perm.append_right [activity] }

theorem count (hprogress : Progress order config initial family groups session served done counted)
    (entry : Nat) (took : Elapsed) :
    ∃ counted, Progress order config initial family groups (session.count entry took)
      served done counted := by
  rcases session.count_cases entry took with heq | ⟨activity, huncounted, heq⟩
  · exact ⟨counted, by rwa [heq]⟩
  obtain ⟨hentry, rfl⟩ := List.getElem?_eq_some_iff.mp huncounted
  refine ⟨counted ++ [(took, session.uncounted[entry])], ?_⟩
  rw [heq]
  exact
    { sound := hprogress.sound.of_trie rfl rfl rfl
      served_perm := hprogress.served_perm
      represents := hprogress.represents
      answers_eq := hprogress.answers_eq
      done_answers := hprogress.done_answers
      size_eq := hprogress.size_eq
      recorder_eq := by
        rw [recordAll_snoc, ← hprogress.recorder_eq]
      counted_perm := by
        rw [List.map_append, List.append_assoc]
        exact ((List.getElem_cons_eraseIdx_perm hentry).append_left _).trans
          hprogress.counted_perm }

theorem after (hprogress : Progress order config initial family groups session served done counted)
    (turns : List Turn) :
    ∃ served done counted,
      Progress order config initial family groups (session.after turns) served done counted := by
  induction turns generalizing session served done counted with
  | nil => exact ⟨served, done, counted, hprogress⟩
  | cons turn turns induction =>
      cases turn with
      | access caller =>
          obtain ⟨_, _, hnext⟩ := hprogress.access caller
          exact induction hnext
      | count entry took =>
          obtain ⟨_, hnext⟩ := hprogress.count entry took
          exact induction hnext

end Progress

end Session

end Containment
