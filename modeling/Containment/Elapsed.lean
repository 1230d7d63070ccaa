import Containment.Fault

namespace Containment

/-! How long something took. Seconds are counted with 64 bits; the nanoseconds
beside them may make up whole seconds of their own. -/

structure Elapsed where
  nanoseconds : Nat
deriving DecidableEq

namespace Elapsed

def nanosecondsPerSecond : Nat := 1000000000

def zero : Elapsed :=
  { nanoseconds := 0 }

def ofParts (seconds : UInt64) (nanoseconds : UInt32) : Except Fault Elapsed :=
  let total := seconds.toNat * nanosecondsPerSecond + nanoseconds.toNat
  if total < UInt64.size * nanosecondsPerSecond then
    .ok { nanoseconds := total }
  else
    .error .durationOverflow

/-- The nanoseconds modulo the size of a counter. -/
def count (elapsed : Elapsed) : UInt64 :=
  UInt64.ofNat elapsed.nanoseconds

end Elapsed

end Containment
