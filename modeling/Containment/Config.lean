import Containment.Json
import Containment.Outline
import Containment.Refusal

namespace Containment

/-! The limits of an index. Only validation looks at them: a configuration out of
bounds can be made, changed, written and read. -/

structure Config where
  /-- The most elements that a stored set may have. -/
  maxSetSize : UInt64
  /-- The number of nodes that an index makes room for at the beginning. -/
  initialNodeCapacity : UInt64
deriving DecidableEq

namespace Config

def largestCapacity : UInt64 := 16777216

def unboundedSetSize : UInt64 := 18446744073709551615

def default : Config :=
  { maxSetSize := unboundedSetSize, initialNodeCapacity := 64 }

inductive Flaw where
  | noSetSize
  | noCapacity
  | capacityTooLarge (capacity : UInt64)
deriving DecidableEq

def Flaw.message : Flaw → String
  | .noSetSize => "max_set_size cannot be 0"
  | .noCapacity => "initial_node_capacity cannot be 0"
  | .capacityTooLarge capacity =>
      "initial_node_capacity " ++ capacity.toNat.repr
        ++ " exceeds " ++ largestCapacity.toNat.repr

/-- The first flaw, the set size before the capacity. -/
def flaw? (config : Config) : Option Flaw :=
  if config.maxSetSize = 0 then some .noSetSize
  else if config.initialNodeCapacity = 0 then some .noCapacity
  else if largestCapacity < config.initialNodeCapacity then
    some (.capacityTooLarge config.initialNodeCapacity)
  else none

def validate (config : Config) : Except Refusal Unit :=
  match config.flaw? with
  | some flaw => .error (.invalidConfig flaw.message)
  | none => .ok ()

def validated (config : Config) : Except Refusal Config := do
  config.validate
  return config

/-! A draft leaves open what has not been chosen. -/

structure Draft where
  maxSetSize : Option UInt64
  initialNodeCapacity : Option UInt64
deriving DecidableEq

namespace Draft

def blank : Draft :=
  { maxSetSize := none, initialNodeCapacity := none }

def complete (draft : Draft) : Config :=
  { maxSetSize := draft.maxSetSize.getD default.maxSetSize
    initialNodeCapacity := draft.initialNodeCapacity.getD default.initialNodeCapacity }

end Draft

/-! The names of the two limits, in the order in which they are written. -/

def maxSetSizeName : String := "max_set_size"

def initialNodeCapacityName : String := "initial_node_capacity"

def outline (config : Config) : Outline :=
  .record "SetTrieConfig"
    [(maxSetSizeName, .number config.maxSetSize.toNat),
      (initialNodeCapacityName, .number config.initialNodeCapacity.toNat)]

end Config

end Containment
