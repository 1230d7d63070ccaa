import Containment.Order
import Containment.Refusal

namespace Containment

/-! A fault is a broken promise of the caller or of the stored structure, as
against a refusal, which is an answer. What was changed before a fault stays
changed. -/

inductive Fault where
  | emptyPath
  | emptyCanonical
  | unorderedCanonical
  /-- A node would stand below a parent whose key is not below its own. -/
  | notAscending (standing : Ordering)
  | outOfBounds (size index : Nat)
  | pathNotAscending (node : Nat)
  | branchesMalformed (node : Nat)
  | countMismatch (cached counted : Nat)
  | durationOverflow
  /-- A traversal has made more steps than there are nodes. -/
  | endless
deriving DecidableEq

namespace Fault

def message : Fault → String
  | .emptyPath => "cannot insert an empty path"
  | .emptyCanonical => "canonical set cannot be empty"
  | .unorderedCanonical => "canonical set must be strictly ascending"
  | .notAscending standing =>
      "assertion `left == right` failed: trie path must be strictly ascending\n  left: "
        ++ Order.standingName standing ++ "\n right: " ++ Order.standingName .lt
  | .outOfBounds size index =>
      "index out of bounds: the len is " ++ size.repr
        ++ " but the index is " ++ index.repr
  | .pathNotAscending node =>
      "set trie path not strictly ascending at node " ++ node.repr
  | .branchesMalformed node =>
      "set trie child list malformed at node " ++ node.repr
  | .countMismatch cached counted =>
      "set trie terminal count mismatch: cached " ++ cached.repr
        ++ ", counted " ++ counted.repr
  | .durationOverflow => "overflow in Duration::new"
  | .endless => "traversal does not end"

end Fault

/-! Why an operation gave no result. -/

inductive Failure where
  | refused (refusal : Refusal)
  | broken (fault : Fault)
deriving DecidableEq

namespace Failure

def message : Failure → String
  | .refused refusal => refusal.message
  | .broken fault => fault.message

end Failure

end Containment
