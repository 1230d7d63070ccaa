import Containment.Elapsed

namespace Containment

/-! What the operations of an index amount to. Counters have 64 bits and wrap. -/

inductive Direction where
  | subsets
  | supersets
deriving DecidableEq

def Direction.name : Direction → String
  | .subsets => "Subsets"
  | .supersets => "Supersets"

/-- What a single operation adds to the counters. -/
inductive Activity where
  | added (inserted : Bool) (nodesCreated : Nat)
  | rejected
  | lookedUp (found : Bool)
  | queried (direction : Direction) (results visited : Nat)
deriving DecidableEq

structure Tally where
  setsAdded : UInt64
  duplicateAdds : UInt64
  rejectedAdds : UInt64
  nodesCreated : UInt64
  lookupsPerformed : UInt64
  lookupsPositive : UInt64
  subsetQueries : UInt64
  supersetQueries : UInt64
  resultsReturned : UInt64
  nodesVisited : UInt64
  addTime : UInt64
  lookupTime : UInt64
  queryTime : UInt64
deriving DecidableEq

namespace Tally

def zero : Tally :=
  { setsAdded := 0, duplicateAdds := 0, rejectedAdds := 0, nodesCreated := 0
    lookupsPerformed := 0, lookupsPositive := 0
    subsetQueries := 0, supersetQueries := 0, resultsReturned := 0, nodesVisited := 0
    addTime := 0, lookupTime := 0, queryTime := 0 }

def countAdded (inserted : Bool) (tally : Tally) : Tally :=
  if inserted then
    { tally with setsAdded := tally.setsAdded + 1 }
  else
    { tally with duplicateAdds := tally.duplicateAdds + 1 }

def countFound (found : Bool) (tally : Tally) : Tally :=
  if found then
    { tally with lookupsPositive := tally.lookupsPositive + 1 }
  else
    tally

def countQuery (direction : Direction) (tally : Tally) : Tally :=
  match direction with
  | .subsets => { tally with subsetQueries := tally.subsetQueries + 1 }
  | .supersets => { tally with supersetQueries := tally.supersetQueries + 1 }

/-- A rejected operation is counted without its time. -/
def record (took : Elapsed) (activity : Activity) (tally : Tally) : Tally :=
  match activity with
  | .added inserted nodesCreated =>
      let tally := tally.countAdded inserted
      { tally with
        nodesCreated := tally.nodesCreated + UInt64.ofNat nodesCreated
        addTime := tally.addTime + took.count }
  | .rejected =>
      { tally with rejectedAdds := tally.rejectedAdds + 1 }
  | .lookedUp found =>
      let tally := tally.countFound found
      { tally with
        lookupsPerformed := tally.lookupsPerformed + 1
        lookupTime := tally.lookupTime + took.count }
  | .queried direction results visited =>
      let tally := tally.countQuery direction
      { tally with
        resultsReturned := tally.resultsReturned + UInt64.ofNat results
        nodesVisited := tally.nodesVisited + UInt64.ofNat visited
        queryTime := tally.queryTime + took.count }

/-! Averages are rounded down. Where nothing was counted they are zero: no division is
begun that has nothing to divide by. -/

def quotient? (total count : UInt64) : Option UInt64 :=
  if count = 0 then none else some (total / count)

def average? (total count : UInt64) : Option UInt64 :=
  if 0 < count then quotient? total count else some 0

theorem isSome_average? (total count : UInt64) : (average? total count).isSome = true := by
  unfold average?
  split
  case isTrue hpos =>
    rw [quotient?, if_neg (UInt64.pos_iff_ne_zero.mp hpos)]
    rfl
  case isFalse => rfl

def average (total count : UInt64) : UInt64 :=
  (average? total count).get (isSome_average? total count)

def averageAddTime (tally : Tally) : UInt64 :=
  average tally.addTime (tally.setsAdded + tally.duplicateAdds)

def averageLookupTime (tally : Tally) : UInt64 :=
  average tally.lookupTime tally.lookupsPerformed

def averageQueryTime (tally : Tally) : UInt64 :=
  average tally.queryTime (tally.subsetQueries + tally.supersetQueries)

/-- The share of lookups that found their set. -/
def hitRate (tally : Tally) : Float :=
  if tally.lookupsPerformed = 0 then 0
  else tally.lookupsPositive.toFloat / tally.lookupsPerformed.toFloat

/-! A summary holds the counters of operations and the averages, but not the
times that the averages are taken of. -/

structure Summary where
  setsAdded : UInt64
  duplicateAdds : UInt64
  rejectedAdds : UInt64
  nodesCreated : UInt64
  lookupsPerformed : UInt64
  lookupsPositive : UInt64
  subsetQueries : UInt64
  supersetQueries : UInt64
  resultsReturned : UInt64
  nodesVisited : UInt64
  averageAddTime : UInt64
  averageLookupTime : UInt64
  averageQueryTime : UInt64
deriving DecidableEq

def summary (tally : Tally) : Summary :=
  { setsAdded := tally.setsAdded
    duplicateAdds := tally.duplicateAdds
    rejectedAdds := tally.rejectedAdds
    nodesCreated := tally.nodesCreated
    lookupsPerformed := tally.lookupsPerformed
    lookupsPositive := tally.lookupsPositive
    subsetQueries := tally.subsetQueries
    supersetQueries := tally.supersetQueries
    resultsReturned := tally.resultsReturned
    nodesVisited := tally.nodesVisited
    averageAddTime := tally.averageAddTime
    averageLookupTime := tally.averageLookupTime
    averageQueryTime := tally.averageQueryTime }

/-- The summary is that of a tally that has counted nothing. -/
def looksUnused (tally : Tally) : Bool :=
  tally.summary == zero.summary

end Tally

/-! A recorder keeps a tally, or nothing at all. -/

inductive Recorder where
  | silent
  | counting (tally : Tally)
deriving DecidableEq

namespace Recorder

def record (took : Elapsed) (activity : Activity) : Recorder → Recorder
  | .silent => .silent
  | .counting tally => .counting (tally.record took activity)

/-- What a recorder can show; one that keeps nothing shows zeros. -/
def tally : Recorder → Tally
  | .silent => .zero
  | .counting tally => tally

def reset : Recorder → Recorder
  | .silent => .silent
  | .counting _ => .counting .zero

end Recorder

end Containment
