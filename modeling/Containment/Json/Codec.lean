import Containment.Json

namespace Containment.Json

/-! The text of a record is left to a library that is not part of this one. A record has
numbers of 64 bits under names. -/

/-- What is used of a library that writes records as JSON texts and reads them. -/
structure Codec where
  write : List (String × UInt64) → String
  /-- The numbers under the names, in the order of the names. -/
  read : List String → String → Option (List UInt64)
  /-- The numbers again, from the members that are still to come and what was met before. -/
  visit : List String → (String → Option UInt64) → List (List Piece × Json) →
    Option (List UInt64)
  number : Json → Option UInt64

/-- With one more number that was met. -/
def Codec.noted (met : String → Option UInt64) (name : String) (number : UInt64)
    (other : String) : Option UInt64 :=
  if other = name then some number else met other

end Containment.Json
