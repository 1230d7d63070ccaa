import Containment.Fault

namespace Containment

variable {α : Type}

/-! The canonical form of a set is the ascending sequence of its elements, each
kept as it was first met. Elements are placed one after another; one that is
already there, up to the order, is dropped. -/

namespace Canonical

def place (order : Order α) (element : α) : List α → List α
  | [] => [element]
  | kept :: rest =>
      match order element kept with
      | .lt => element :: kept :: rest
      | .eq => kept :: rest
      | .gt => kept :: place order element rest

def arrange (order : Order α) (elements : List α) : List α :=
  elements.foldl (fun kept element => place order element kept) []

theorem place_ne_nil (order : Order α) (element : α) (kept : List α) :
    place order element kept ≠ [] := by
  cases kept with
  | nil => simp [place]
  | cons first rest =>
      simp only [place]
      split <;> simp

private theorem foldl_place_ne_nil (order : Order α) (elements kept : List α)
    (hkept : kept ≠ []) :
    elements.foldl (fun kept element => place order element kept) kept ≠ [] := by
  induction elements generalizing kept with
  | nil => exact hkept
  | cons element elements ih => exact ih _ (place_ne_nil order element kept)

theorem arrange_cons_ne_nil (order : Order α) (element : α) (elements : List α) :
    arrange order (element :: elements) ≠ [] :=
  foldl_place_ne_nil order elements _ (place_ne_nil order element [])

end Canonical

/-- A canonical form is never empty: the empty set is not stored and not looked for. -/
structure Canonical (α : Type) where
  elements : List α
  nonempty : elements ≠ []
deriving DecidableEq

namespace Canonical

def size (set : Canonical α) : Nat :=
  set.elements.length

def first (set : Canonical α) : α :=
  set.elements.head set.nonempty

def last (set : Canonical α) : α :=
  set.elements.getLast set.nonempty

def ofList? (order : Order α) : List α → Option (Canonical α)
  | [] => none
  | element :: rest =>
      some ⟨arrange order (element :: rest), arrange_cons_ne_nil order element rest⟩

/-- Only the empty set is refused. -/
def forInsertion (order : Order α) (elements : List α) :
    Except Refusal (Canonical α) :=
  match ofList? order elements with
  | none => .error .emptySet
  | some set => .ok set

/-- Takes a sequence that must be canonical as it stands. -/
def ofAscending (order : Order α) : List α → Except Fault (Canonical α)
  | [] => .error .emptyCanonical
  | first :: rest =>
      if order.ascending (first :: rest) then
        .ok ⟨first :: rest, List.cons_ne_nil first rest⟩
      else
        .error .unorderedCanonical

@[simp] theorem ofList?_nil (order : Order α) :
    ofList? order [] = none := rfl

theorem ofList?_eq_none_iff {order : Order α} {elements : List α} :
    ofList? order elements = none ↔ elements = [] := by
  cases elements <;> simp [ofList?]

end Canonical

end Containment
