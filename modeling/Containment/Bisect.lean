namespace Containment

variable {ι : Type}

/-! Search by halving in a list whose entries stand first below, then at, then
above what is looked for. -/

inductive Spot (ι : Type) where
  | met (index : Nat) (entry : ι)
  /-- The place where an entry would go that is not there. -/
  | gap (index : Nat)
deriving DecidableEq

/-- `start` is the index of the first entry of the window. The middle entry goes
to the upper half unless it stands above what is looked for. -/
def bisectFrom (standing : ι → Ordering) (start : Nat) : List ι → Spot ι
  | [] => .gap start
  | [entry] =>
      match standing entry with
      | .lt => .gap (start + 1)
      | .eq => .met start entry
      | .gt => .gap start
  | first :: second :: rest =>
      let window := first :: second :: rest
      let half := window.length / 2
      if (window[half]?.map standing) = some .gt then
        bisectFrom standing start (window.take (window.length - half))
      else
        bisectFrom standing (start + half) (window.drop half)
termination_by window => window.length
decreasing_by
  all_goals simp only [List.length_take, List.length_drop, List.length_cons]; omega

def bisect (standing : ι → Ordering) (entries : List ι) : Spot ι :=
  bisectFrom standing 0 entries

/-- The number of entries before the first that fails the test, in a list where
all that pass come before all that fail. -/
def partitionPoint (passes : ι → Bool) (entries : List ι) : Nat :=
  match bisect (fun entry => if passes entry then .lt else .gt) entries with
  | .met index _ => index
  | .gap index => index

end Containment
