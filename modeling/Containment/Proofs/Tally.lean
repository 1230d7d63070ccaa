import Containment.Tally
import Mathlib.Algebra.GroupWithZero.Nat

namespace Containment

/-! What the counters count of an activity. -/

namespace Activity

def stored : Activity → Nat
  | .added true _ => 1
  | _ => 0

def repeated : Activity → Nat
  | .added false _ => 1
  | _ => 0

def refused : Activity → Nat
  | .rejected => 1
  | _ => 0

def created : Activity → Nat
  | .added _ nodesCreated => nodesCreated
  | _ => 0

def lookups : Activity → Nat
  | .lookedUp _ => 1
  | _ => 0

def hits : Activity → Nat
  | .lookedUp true => 1
  | _ => 0

def queries (direction : Direction) : Activity → Nat
  | .queried asked _ _ => if asked = direction then 1 else 0
  | _ => 0

def results : Activity → Nat
  | .queried _ results _ => results
  | _ => 0

def visited : Activity → Nat
  | .queried _ _ visited => visited
  | _ => 0

end Activity

/-! A counter adds up what it counts of every activity, as far as 64 bits go. -/

def Counts (counter : Tally → UInt64) (weight : Activity → Nat) : Prop :=
  ∀ took activity tally,
    counter (Tally.record took activity tally) = counter tally + UInt64.ofNat (weight activity)

theorem counts_additions :
    Counts Tally.setsAdded Activity.stored ∧ Counts Tally.duplicateAdds Activity.repeated ∧
      Counts Tally.rejectedAdds Activity.refused ∧
      Counts Tally.nodesCreated Activity.created := by
  refine ⟨?_, ?_, ?_, ?_⟩ <;> intro took activity tally <;>
    rcases activity with ⟨_ | _, _⟩ | _ | ⟨_ | _⟩ | ⟨_ | _, _, _⟩ <;>
      simp [Tally.record, Tally.countAdded, Tally.countFound, Tally.countQuery,
        Activity.stored, Activity.repeated, Activity.refused, Activity.created]

theorem counts_looks :
    Counts Tally.lookupsPerformed Activity.lookups ∧ Counts Tally.lookupsPositive Activity.hits ∧
      Counts Tally.subsetQueries (Activity.queries .subsets) ∧
      Counts Tally.supersetQueries (Activity.queries .supersets) ∧
      Counts Tally.resultsReturned Activity.results ∧
      Counts Tally.nodesVisited Activity.visited := by
  refine ⟨?_, ?_, ?_, ?_, ?_, ?_⟩ <;> intro took activity tally <;>
    rcases activity with ⟨_ | _, _⟩ | _ | ⟨_ | _⟩ | ⟨_ | _, _, _⟩ <;>
      simp [Tally.record, Tally.countAdded, Tally.countFound, Tally.countQuery,
        Activity.lookups, Activity.hits, Activity.queries, Activity.results,
        Activity.visited]

/-- Counts one activity after another. -/
def Recorder.recordAll (recorder : Recorder) (entries : List (Elapsed × Activity)) : Recorder :=
  entries.foldl (fun recorder entry => recorder.record entry.1 entry.2) recorder

theorem recordAll_snoc (recorder : Recorder) (entries : List (Elapsed × Activity))
    (entry : Elapsed × Activity) :
    recorder.recordAll (entries ++ [entry]) =
      (recorder.recordAll entries).record entry.1 entry.2 := by
  simp [Recorder.recordAll]

def totalOf (weight : Activity → Nat) : List Activity → Nat
  | [] => 0
  | activity :: activities => weight activity + totalOf weight activities

@[simp] theorem totalOf_nil (weight : Activity → Nat) : totalOf weight [] = 0 := rfl

@[simp] theorem totalOf_cons (weight : Activity → Nat) (activity : Activity)
    (activities : List Activity) :
    totalOf weight (activity :: activities) = weight activity + totalOf weight activities := rfl

theorem totalOf_append (weight : Activity → Nat) (front back : List Activity) :
    totalOf weight (front ++ back) = totalOf weight front + totalOf weight back := by
  induction front with
  | nil => simp
  | cons activity front induction => simp [induction, Nat.add_assoc]

theorem totalOf_perm (weight : Activity → Nat) {lefts rights : List Activity}
    (hperm : lefts.Perm rights) : totalOf weight lefts = totalOf weight rights := by
  induction hperm with
  | nil => rfl
  | cons activity _ induction => rw [totalOf_cons, totalOf_cons, induction]
  | swap first second rest => simp [Nat.add_left_comm]
  | trans _ _ hfront hback => exact hfront.trans hback

@[simp] theorem recordAll_silent (entries : List (Elapsed × Activity)) :
    Recorder.silent.recordAll entries = .silent := by
  induction entries with
  | nil => rfl
  | cons _ _ induction => exact induction

theorem reset_recordAll (recorder : Recorder) (entries : List (Elapsed × Activity)) :
    (recorder.recordAll entries).reset = recorder.reset := by
  induction entries generalizing recorder with
  | nil => rfl
  | cons entry entries induction =>
      apply (induction (recorder.record entry.1 entry.2)).trans
      cases recorder <;> rfl

/-- A counter that adds something up one record at a time adds it up over many. -/
theorem recordAll_of_record (counter : Tally → UInt64) (weight : Elapsed × Activity → Nat)
    (hrecord : ∀ took activity tally, counter (Tally.record took activity tally) =
      counter tally + UInt64.ofNat (weight (took, activity)))
    (tally : Tally) (entries : List (Elapsed × Activity)) :
    counter ((Recorder.counting tally).recordAll entries).tally =
      counter tally + UInt64.ofNat (entries.map weight).sum := by
  induction entries generalizing tally with
  | nil => simp [Recorder.recordAll, Recorder.tally]
  | cons entry entries induction =>
      have hlater := induction (tally.record entry.1 entry.2)
      rw [hrecord, UInt64.add_assoc, ← UInt64.ofNat_add] at hlater
      rw [List.map_cons, List.sum_cons]
      exact hlater

theorem totalOf_eq_sum (weight : Activity → Nat) (activities : List Activity) :
    totalOf weight activities = (activities.map weight).sum := by
  induction activities with
  | nil => rfl
  | cons activity activities induction =>
      rw [totalOf_cons, induction, List.map_cons, List.sum_cons]

section Counts

variable {counter other : Tally → UInt64} {weight burden : Activity → Nat}

theorem Counts.add (hcounts : Counts counter weight) (hother : Counts other burden) :
    Counts (fun tally => counter tally + other tally)
      (fun activity => weight activity + burden activity) := by
  intro took activity tally
  simp only [hcounts took, hother took, UInt64.ofNat_add]
  ac_rfl

theorem Counts.recordAll (hcounts : Counts counter weight) (tally : Tally)
    (entries : List (Elapsed × Activity)) :
    counter ((Recorder.counting tally).recordAll entries).tally =
      counter tally + UInt64.ofNat (totalOf weight (entries.map Prod.snd)) := by
  rw [totalOf_eq_sum, List.map_map]
  exact recordAll_of_record counter (fun entry => weight entry.2) hcounts tally entries

/-- The times do not matter, and neither does the order. -/
theorem Counts.recordAll_eq (hcounts : Counts counter weight) (recorder : Recorder)
    {lefts rights : List (Elapsed × Activity)}
    (htotal : totalOf weight (lefts.map Prod.snd) = totalOf weight (rights.map Prod.snd)) :
    counter (recorder.recordAll lefts).tally = counter (recorder.recordAll rights).tally := by
  cases recorder with
  | silent => rw [recordAll_silent, recordAll_silent]
  | counting tally => rw [hcounts.recordAll, hcounts.recordAll, htotal]

end Counts

end Containment
