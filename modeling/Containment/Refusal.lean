namespace Containment

/-! A refusal turns down a request and leaves everything as it was. -/

inductive Refusal where
  | invalidArgument (reason : String)
  | setTooLarge (size limit : Nat)
  | invalidConfig (reason : String)
deriving DecidableEq

namespace Refusal

def emptySet : Refusal :=
  .invalidArgument "set must contain at least one element"

def message : Refusal → String
  | .invalidArgument reason => "Invalid argument: " ++ reason
  | .setTooLarge size limit => "Set too large: " ++ size.repr ++ " > " ++ limit.repr
  | .invalidConfig reason => "Invalid configuration: " ++ reason

end Refusal

end Containment
