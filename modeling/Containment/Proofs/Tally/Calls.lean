import Containment.Proofs.Tally
import Mathlib.Algebra.Order.BigOperators.Group.List
import Mathlib.Algebra.Order.Ring.Nat
import Mathlib.Data.List.DropRight

namespace Containment

/-! The classes of activities whose time is taken. What was refused has none. -/

inductive Occupation where
  | adding
  | lookingUp
  | querying
deriving DecidableEq

def Activity.occupation? : Activity → Option Occupation
  | .added _ _ => some .adding
  | .rejected => none
  | .lookedUp _ => some .lookingUp
  | .queried _ _ _ => some .querying

/-- The full times of a class, however many bits they take. -/
def Occupation.durations (occupation : Occupation) (entries : List (Elapsed × Activity)) :
    List Nat :=
  (entries.filter fun entry => entry.2.occupation? == some occupation).map
    fun entry => entry.1.nanoseconds

/-- The time that an activity takes, if it is one of the class. -/
def Occupation.spent (occupation : Occupation) (entry : Elapsed × Activity) : Nat :=
  if entry.2.occupation? == some occupation then entry.1.nanoseconds else 0

/-! A tally has thirteen counters. Each counts something of every activity or its time. -/

namespace Tally

inductive Counter where
  | setsAdded
  | duplicateAdds
  | rejectedAdds
  | nodesCreated
  | lookupsPerformed
  | lookupsPositive
  | subsetQueries
  | supersetQueries
  | resultsReturned
  | nodesVisited
  | addTime
  | lookupTime
  | queryTime
deriving DecidableEq

namespace Counter

def read : Counter → Tally → UInt64
  | .setsAdded => Tally.setsAdded
  | .duplicateAdds => Tally.duplicateAdds
  | .rejectedAdds => Tally.rejectedAdds
  | .nodesCreated => Tally.nodesCreated
  | .lookupsPerformed => Tally.lookupsPerformed
  | .lookupsPositive => Tally.lookupsPositive
  | .subsetQueries => Tally.subsetQueries
  | .supersetQueries => Tally.supersetQueries
  | .resultsReturned => Tally.resultsReturned
  | .nodesVisited => Tally.nodesVisited
  | .addTime => Tally.addTime
  | .lookupTime => Tally.lookupTime
  | .queryTime => Tally.queryTime

def weight : Counter → Elapsed × Activity → Nat
  | .setsAdded, entry => entry.2.stored
  | .duplicateAdds, entry => entry.2.repeated
  | .rejectedAdds, entry => entry.2.refused
  | .nodesCreated, entry => entry.2.created
  | .lookupsPerformed, entry => entry.2.lookups
  | .lookupsPositive, entry => entry.2.hits
  | .subsetQueries, entry => entry.2.queries .subsets
  | .supersetQueries, entry => entry.2.queries .supersets
  | .resultsReturned, entry => entry.2.results
  | .nodesVisited, entry => entry.2.visited
  | .addTime, entry => Occupation.adding.spent entry
  | .lookupTime, entry => Occupation.lookingUp.spent entry
  | .queryTime, entry => Occupation.querying.spent entry

/-- The exact total, without any bound. -/
def total (counter : Counter) (entries : List (Elapsed × Activity)) : Nat :=
  (entries.map counter.weight).sum

theorem read_zero (counter : Counter) : counter.read .zero = 0 := by
  cases counter <;> rfl

theorem read_record (counter : Counter) (took : Elapsed) (activity : Activity) (tally : Tally) :
    counter.read (tally.record took activity) =
      counter.read tally + UInt64.ofNat (counter.weight (took, activity)) := by
  obtain ⟨hstored, hrepeated, hrefused, hcreated⟩ := counts_additions
  obtain ⟨hlookups, hhits, hsubsets, hsupersets, hresults, hvisited⟩ := counts_looks
  cases counter
  case setsAdded => exact hstored took activity tally
  case duplicateAdds => exact hrepeated took activity tally
  case rejectedAdds => exact hrefused took activity tally
  case nodesCreated => exact hcreated took activity tally
  case lookupsPerformed => exact hlookups took activity tally
  case lookupsPositive => exact hhits took activity tally
  case subsetQueries => exact hsubsets took activity tally
  case supersetQueries => exact hsupersets took activity tally
  case resultsReturned => exact hresults took activity tally
  case nodesVisited => exact hvisited took activity tally
  all_goals
    rcases activity with ⟨_ | _, _⟩ | _ | ⟨_ | _⟩ | ⟨_ | _, _, _⟩ <;>
      simp [read, weight, Occupation.spent, Activity.occupation?, Tally.record,
        Tally.countAdded, Tally.countFound, Tally.countQuery, Elapsed.count]

/-- Nothing of a tally is hidden from its counters. -/
theorem eq_of_read {left right : Tally}
    (hread : ∀ counter : Counter, counter.read left = counter.read right) : left = right := by
  cases left
  cases right
  rw [Tally.mk.injEq]
  exact ⟨hread .setsAdded, hread .duplicateAdds, hread .rejectedAdds, hread .nodesCreated,
    hread .lookupsPerformed, hread .lookupsPositive, hread .subsetQueries,
    hread .supersetQueries, hread .resultsReturned, hread .nodesVisited, hread .addTime,
    hread .lookupTime, hread .queryTime⟩

theorem read_recordAll (counter : Counter) (entries : List (Elapsed × Activity)) :
    counter.read ((Recorder.counting .zero).recordAll entries).tally =
      UInt64.ofNat (counter.total entries) := by
  have hrecorded := recordAll_of_record counter.read counter.weight counter.read_record
    .zero entries
  rwa [read_zero, UInt64.zero_add] at hrecorded

end Counter

end Tally

/-! Everything that can be done to a recorder that counts. -/

inductive Recorder.Call where
  | record (took : Elapsed) (activity : Activity)
  | reset
deriving DecidableEq

def Recorder.called (recorder : Recorder) : Recorder.Call → Recorder
  | .record took activity => recorder.record took activity
  | .reset => recorder.reset

def Recorder.calledAll (recorder : Recorder) (calls : List Recorder.Call) : Recorder :=
  calls.foldl Recorder.called recorder

def Recorder.Call.entry? : Recorder.Call → Option (Elapsed × Activity)
  | .record took activity => some (took, activity)
  | .reset => none

/-- What was recorded since the last reset. -/
def sinceReset (calls : List Recorder.Call) : List (Elapsed × Activity) :=
  (calls.rtakeWhile (· != .reset)).filterMap Recorder.Call.entry?

private theorem calledAll_eq (calls : List Recorder.Call) :
    (Recorder.counting .zero).calledAll calls =
      (Recorder.counting .zero).recordAll (sinceReset calls) := by
  induction calls using List.reverseRecOn with
  | nil => rfl
  | append_singleton calls call induction =>
      have hlast : (Recorder.counting .zero).calledAll (calls ++ [call]) =
          ((Recorder.counting .zero).calledAll calls).called call := by
        simp [Recorder.calledAll]
      rw [hlast, induction]
      cases call with
      | record took activity =>
          have hsince : sinceReset (calls ++ [.record took activity]) =
              sinceReset calls ++ [(took, activity)] := by
            rw [sinceReset, List.rtakeWhile_concat_pos _ _ _ rfl, List.filterMap_append]
            rfl
          rw [hsince, recordAll_snoc]
          rfl
      | reset =>
          have hsince : sinceReset (calls ++ [.reset]) = [] := by
            rw [sinceReset, List.rtakeWhile_concat_neg _ _ _ (by simp)]
            rfl
          rw [hsince]
          exact reset_recordAll _ _

/-- The counters of a recorder that has counted from nothing. -/
def tallyOf (calls : List Recorder.Call) : Tally :=
  ((Recorder.counting .zero).calledAll calls).tally

theorem tallyOf_eq (calls : List Recorder.Call) :
    tallyOf calls = ((Recorder.counting .zero).recordAll (sinceReset calls)).tally := by
  rw [tallyOf, calledAll_eq]

/-! The counters that an average is taken of. -/

namespace Occupation

def time : Occupation → Tally → UInt64
  | .adding => Tally.addTime
  | .lookingUp => Tally.lookupTime
  | .querying => Tally.queryTime

def count : Occupation → Tally → UInt64
  | .adding, tally => tally.setsAdded + tally.duplicateAdds
  | .lookingUp, tally => tally.lookupsPerformed
  | .querying, tally => tally.subsetQueries + tally.supersetQueries

def average : Occupation → Tally.Summary → UInt64
  | .adding => Tally.Summary.averageAddTime
  | .lookingUp => Tally.Summary.averageLookupTime
  | .querying => Tally.Summary.averageQueryTime

theorem average_eq_ite (total count : UInt64) :
    Tally.average total count = if count = 0 then 0 else total / count := by
  rw [Tally.average, ← Option.some_inj, Option.some_get, Tally.average?]
  split
  case isTrue hpos =>
    rw [Tally.quotient?, if_neg (UInt64.pos_iff_ne_zero.mp hpos),
      if_neg (UInt64.pos_iff_ne_zero.mp hpos)]
  case isFalse hpos =>
    rw [if_pos (Decidable.not_not.mp fun hne => hpos (UInt64.pos_iff_ne_zero.mpr hne))]

theorem average_summary (occupation : Occupation) (tally : Tally) :
    occupation.average tally.summary =
      Tally.average (occupation.time tally) (occupation.count tally) := by
  cases occupation <;> rfl

theorem sum_spent (occupation : Occupation) (entries : List (Elapsed × Activity)) :
    (entries.map occupation.spent).sum = (occupation.durations entries).sum := by
  induction entries with
  | nil => rfl
  | cons entry entries induction =>
      rw [List.map_cons, List.sum_cons, induction, spent, durations, durations, List.filter_cons]
      split
      · rw [List.map_cons, List.sum_cons]
      · exact Nat.zero_add _

theorem time_recordAll (occupation : Occupation) (entries : List (Elapsed × Activity)) :
    occupation.time ((Recorder.counting .zero).recordAll entries).tally =
      UInt64.ofNat (occupation.durations entries).sum := by
  rw [← sum_spent]
  cases occupation
  case adding => exact Tally.Counter.addTime.read_recordAll entries
  case lookingUp => exact Tally.Counter.lookupTime.read_recordAll entries
  case querying => exact Tally.Counter.queryTime.read_recordAll entries

theorem counts_count (occupation : Occupation) :
    Counts occupation.count fun activity =>
      (activity.occupation? == some occupation).toNat := by
  obtain ⟨hstored, hrepeated, _⟩ := counts_additions
  obtain ⟨hlookups, _, hsubsets, hsupersets, _⟩ := counts_looks
  intro took activity tally
  cases occupation
  case adding =>
    refine (hstored.add hrepeated took activity tally).trans ?_
    rcases activity with ⟨_ | _, _⟩ | _ | _ | _ <;> rfl
  case lookingUp =>
    refine (hlookups took activity tally).trans ?_
    cases activity <;> rfl
  case querying =>
    refine (hsubsets.add hsupersets took activity tally).trans ?_
    rcases activity with _ | _ | _ | ⟨_ | _, _, _⟩ <;> rfl

theorem length_durations (occupation : Occupation) (entries : List (Elapsed × Activity)) :
    totalOf (fun activity => (activity.occupation? == some occupation).toNat)
        (entries.map Prod.snd) =
      (occupation.durations entries).length := by
  induction entries with
  | nil => rfl
  | cons entry entries induction =>
      rw [List.map_cons, totalOf_cons, induction, durations, durations, List.filter_cons]
      cases entry.2.occupation? == some occupation with
      | true => exact Nat.add_comm _ _
      | false => exact Nat.zero_add _

theorem count_recordAll (occupation : Occupation) (entries : List (Elapsed × Activity)) :
    occupation.count ((Recorder.counting .zero).recordAll entries).tally =
      UInt64.ofNat (occupation.durations entries).length := by
  have hzero : occupation.count .zero = 0 := by cases occupation <;> rfl
  rw [occupation.counts_count.recordAll, hzero, UInt64.zero_add, length_durations]

/-- Where neither the time nor the number of records is too large for a counter, the
average is the mean, rounded down. -/
theorem average_recordAll (occupation : Occupation) (entries : List (Elapsed × Activity))
    (htime : (occupation.durations entries).sum < UInt64.size)
    (hcount : (occupation.durations entries).length < UInt64.size) :
    (occupation.average ((Recorder.counting .zero).recordAll entries).tally.summary).toNat =
      (occupation.durations entries).sum / (occupation.durations entries).length := by
  rw [average_summary, time_recordAll, count_recordAll, average_eq_ite]
  split
  case isTrue hnone =>
    have hlength : (occupation.durations entries).length = 0 := by
      rw [← UInt64.toNat_ofNat_of_lt' hcount, hnone]
      rfl
    rw [hlength, Nat.div_zero]
    rfl
  case isFalse =>
    rw [UInt64.toNat_div, UInt64.toNat_ofNat_of_lt' htime, UInt64.toNat_ofNat_of_lt' hcount]

end Occupation

/-- A mean lies between the smallest and the largest of what it is taken of. -/
theorem mean_between {durations : List Nat} {least greatest : Nat}
    (hleast : durations.min? = some least) (hgreatest : durations.max? = some greatest) :
    least ≤ durations.sum / durations.length ∧ durations.sum / durations.length ≤ greatest := by
  have hpos : 0 < durations.length := by
    cases durations with
    | nil => cases hleast
    | cons first rest => exact Nat.succ_pos _
  obtain ⟨_, hlow⟩ := List.min?_eq_some_iff.mp hleast
  obtain ⟨_, hhigh⟩ := List.max?_eq_some_iff.mp hgreatest
  refine ⟨(Nat.le_div_iff_mul_le hpos).mpr ?_, Nat.div_le_of_le_mul ?_⟩
  · have hsum := List.card_nsmul_le_sum durations least hlow
    rwa [Nat.nsmul_eq_mul, Nat.mul_comm] at hsum
  · have hsum := List.sum_le_card_nsmul durations greatest hhigh
    rwa [Nat.nsmul_eq_mul] at hsum

/-! A summary shows the counters that are no times, and averages in place of these. -/

namespace Tally

def Counter.shown? : Counter → Summary → Option UInt64
  | .setsAdded, summary => some summary.setsAdded
  | .duplicateAdds, summary => some summary.duplicateAdds
  | .rejectedAdds, summary => some summary.rejectedAdds
  | .nodesCreated, summary => some summary.nodesCreated
  | .lookupsPerformed, summary => some summary.lookupsPerformed
  | .lookupsPositive, summary => some summary.lookupsPositive
  | .subsetQueries, summary => some summary.subsetQueries
  | .supersetQueries, summary => some summary.supersetQueries
  | .resultsReturned, summary => some summary.resultsReturned
  | .nodesVisited, summary => some summary.nodesVisited
  | .addTime, _ | .lookupTime, _ | .queryTime, _ => none

theorem Counter.eq_read_of_shown? {counter : Counter} {tally : Tally} {shown : UInt64}
    (hshown : counter.shown? tally.summary = some shown) : shown = counter.read tally := by
  cases counter <;> cases hshown <;> rfl

/-- The summary, by divisions that may fail. -/
def summary? (tally : Tally) : Option Summary := do
  let averageAddTime ← average? tally.addTime (tally.setsAdded + tally.duplicateAdds)
  let averageLookupTime ← average? tally.lookupTime tally.lookupsPerformed
  let averageQueryTime ← average? tally.queryTime (tally.subsetQueries + tally.supersetQueries)
  return { tally.summary with averageAddTime, averageLookupTime, averageQueryTime }

theorem average?_eq (total count : UInt64) : average? total count = some (average total count) :=
  (Option.some_get (isSome_average? total count)).symm

theorem summary?_eq (tally : Tally) : tally.summary? = some tally.summary := by
  simp only [summary?, average?_eq]
  rfl

end Tally

/-! What a recorder that counts from nothing has to show after any calls. -/

structure Tallies : Prop where
  /-- A counter has the exact total since the last reset, as far as 64 bits go. -/
  counter_eq : ∀ (calls : List Recorder.Call) (counter : Tally.Counter),
    (counter.read (tallyOf calls)).toNat = counter.total (sinceReset calls) % UInt64.size
  summary_shows : ∀ (calls : List Recorder.Call) (counter : Tally.Counter) (shown : UInt64),
    counter.shown? (tallyOf calls).summary = some shown →
      shown.toNat = counter.total (sinceReset calls) % UInt64.size
  /-- The order of the calls since the last reset does not matter, and none before it. -/
  summary_eq : ∀ lefts rights : List Recorder.Call, (sinceReset lefts).Perm (sinceReset rights) →
    (tallyOf lefts).summary = (tallyOf rights).summary
  summary_defined : ∀ tally : Tally, tally.summary? = some tally.summary
  average_of_none : ∀ (tally : Tally) (occupation : Occupation),
    occupation.count tally = 0 → occupation.average tally.summary = 0
  average_eq : ∀ (calls : List Recorder.Call) (occupation : Occupation) (durations : List Nat),
    occupation.durations (sinceReset calls) = durations →
      durations.sum < UInt64.size → durations.length < UInt64.size →
        (occupation.average (tallyOf calls).summary).toNat = durations.sum / durations.length
  average_between : ∀ (calls : List Recorder.Call) (occupation : Occupation)
    (durations : List Nat) (least greatest : Nat),
    occupation.durations (sinceReset calls) = durations →
      durations.sum < UInt64.size → durations.length < UInt64.size →
        durations.min? = some least → durations.max? = some greatest →
          least ≤ (occupation.average (tallyOf calls).summary).toNat ∧
            (occupation.average (tallyOf calls).summary).toNat ≤ greatest

theorem toNat_read_tallyOf (calls : List Recorder.Call) (counter : Tally.Counter) :
    (counter.read (tallyOf calls)).toNat = counter.total (sinceReset calls) % UInt64.size := by
  rw [tallyOf_eq, counter.read_recordAll]
  exact UInt64.toNat_ofNat'

theorem tallyOf_tallies : Tallies where
  counter_eq := toNat_read_tallyOf
  summary_shows := by
    intro calls counter shown hshown
    rw [Tally.Counter.eq_read_of_shown? hshown]
    exact toNat_read_tallyOf calls counter
  summary_eq := by
    intro lefts rights hperm
    apply congrArg Tally.summary
    apply Tally.Counter.eq_of_read
    intro counter
    rw [tallyOf_eq, tallyOf_eq, counter.read_recordAll, counter.read_recordAll,
      Tally.Counter.total, Tally.Counter.total, (hperm.map counter.weight).sum_nat]
  summary_defined := Tally.summary?_eq
  average_of_none := by
    intro tally occupation hnone
    rw [occupation.average_summary, hnone]
    rfl
  average_eq := by
    rintro calls occupation durations rfl htime hcount
    rw [tallyOf_eq]
    exact occupation.average_recordAll _ htime hcount
  average_between := by
    rintro calls occupation durations least greatest rfl htime hcount hleast hgreatest
    rw [tallyOf_eq, occupation.average_recordAll _ htime hcount]
    exact mean_between hleast hgreatest

/-- The lookup takes longer than a counter can tell; the one before the reset is forgotten. -/
def timedCalls : List Recorder.Call :=
  [.record ⟨7⟩ (.lookedUp true), .reset, .record ⟨100⟩ (.added true 3),
    .record ⟨UInt64.size + 40⟩ (.lookedUp false), .record ⟨9⟩ .rejected,
    .record ⟨201⟩ (.added false 0)]

theorem tallyOf_tallies_timedCalls :
    Occupation.adding.durations (sinceReset timedCalls) = [100, 201] ∧
      Tally.Counter.lookupTime.total (sinceReset timedCalls) = UInt64.size + 40 ∧
      (tallyOf timedCalls).lookupTime = 40 ∧ (tallyOf timedCalls).summary.averageAddTime = 150 ∧
      Tallies ∧ 100 ≤ (Occupation.adding.average (tallyOf timedCalls).summary).toNat ∧
      (Occupation.adding.average (tallyOf timedCalls).summary).toNat ≤ 201 :=
  have hdurations : Occupation.adding.durations (sinceReset timedCalls) = [100, 201] := by
    decide +kernel
  have hbetween := tallyOf_tallies.average_between timedCalls .adding [100, 201] 100 201
    hdurations (by decide) (by decide) (by decide) (by decide)
  ⟨hdurations, by decide +kernel, by decide +kernel, by decide +kernel, tallyOf_tallies,
    hbetween.1, hbetween.2⟩

end Containment
