import Containment.Index

namespace Containment

variable {α : Type}

/-! The operations of an index as requests with replies, for callers that know
nothing else of it. -/

inductive Request (α : Type) where
  | add (elements : List α)
  | contains (elements : List α)
  | subsetsOf (elements : List α)
  | supersetsOf (elements : List α)
  | size
  | isEmpty
deriving DecidableEq

inductive Reply (α : Type) where
  | flag (value : Bool)
  | sets (found : List (List α))
  | count (value : Nat)
deriving DecidableEq

namespace Index.Performed

/-- The same operation with its answer as a reply. -/
def map {β γ : Type} (reply : β → γ) (performed : Index.Performed α β) :
    Index.Performed α γ :=
  { performed with answer := performed.answer.map reply }

end Index.Performed

namespace Index

/-- Only the first four requests report events and are counted. -/
def serve (index : Index α) (took : Elapsed) : Request α → Performed α (Reply α)
  | .add elements => (index.add took elements).map .flag
  | .contains elements => (index.contains took elements).map .flag
  | .subsetsOf elements => (index.subsetsOf took elements).map .sets
  | .supersetsOf elements => (index.supersetsOf took elements).map .sets
  | .size => { index, answer := .ok (.count index.size), events := [] }
  | .isEmpty => { index, answer := .ok (.flag index.isEmpty), events := [] }

end Index

end Containment
