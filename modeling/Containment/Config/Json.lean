import Containment.Config
import Containment.Json.Plain

namespace Containment.Config

/-! A configuration as JSON: a record with a number for each limit, in the order of their
names. Validation has no part in it. -/

def fieldNames : List String :=
  [maxSetSizeName, initialNodeCapacityName]

def fields (config : Config) : List (String × UInt64) :=
  [(maxSetSizeName, config.maxSetSize), (initialNodeCapacityName, config.initialNodeCapacity)]

def ofNumbers? : List UInt64 → Option Config
  | [maxSetSize, initialNodeCapacity] => some { maxSetSize, initialNodeCapacity }
  | _ => none

def write (config : Config) (codec : Json.Codec) : String :=
  codec.write config.fields

def read (codec : Json.Codec) (text : String) : Option Config := do
  ofNumbers? (← codec.read fieldNames text)

def toText (config : Config) : String :=
  config.write .plain

def ofText? (text : String) : Option Config :=
  read .plain text

end Containment.Config
