namespace Containment

/-! A three-way comparison. The index never asks for equality of elements: two
elements are one to it exactly when their order says `Ordering.eq`. -/

abbrev Order (α : Type) := α → α → Ordering

namespace Order

variable {α β : Type}

def equivalent (order : Order α) (left right : α) : Bool :=
  order left right == .eq

def natural [Ord α] : Order α :=
  compare

def reversed (order : Order α) : Order α :=
  fun left right => order right left

/-- Tells no two elements apart. -/
def indifferent : Order α :=
  fun _ _ => .eq

/-- Compares elements by a key read off each of them. -/
def on (order : Order β) (key : α → β) : Order α :=
  fun left right => order (key left) (key right)

/-- The first component decides unless it says `Ordering.eq`. -/
def lexicographic (first : Order α) (second : Order β) : Order (α × β) :=
  fun left right => (first left.1 right.1).then (second left.2 right.2)

/-- Sequences by their first difference; a proper beginning comes before what it begins. -/
def sequences (order : Order α) : Order (List α)
  | [], [] => .eq
  | [], _ :: _ => .lt
  | _ :: _, [] => .gt
  | left :: lefts, right :: rights =>
      (order left right).then (sequences order lefts rights)

/-- How the first of two elements stands to the second, in a word. -/
def standingName : Ordering → String
  | .lt => "Less"
  | .eq => "Equal"
  | .gt => "Greater"

/-- Every element stands strictly below the one that follows it. -/
def ascending (order : Order α) : List α → Bool
  | left :: right :: rest =>
      order left right == .lt && ascending order (right :: rest)
  | _ => true

@[simp] theorem equivalent_eq_true {order : Order α} {left right : α} :
    order.equivalent left right = true ↔ order left right = .eq := by
  simp [equivalent]

@[simp] theorem reversed_reversed (order : Order α) :
    order.reversed.reversed = order := rfl

@[simp] theorem ascending_nil (order : Order α) :
    order.ascending [] = true := rfl

@[simp] theorem ascending_singleton (order : Order α) (element : α) :
    order.ascending [element] = true := rfl

@[simp] theorem ascending_cons_cons (order : Order α) (left right : α)
    (rest : List α) :
    order.ascending (left :: right :: rest) =
      (order left right == .lt && order.ascending (right :: rest)) := rfl

/-! A lawful order is a total preorder, `Std.TransCmp`. Turning an order round,
reading it through a key and combining two of them keep the law. -/

instance lawful_reversed (order : Order α) [Std.TransCmp order] :
    Std.TransCmp order.reversed where
  eq_swap {_ _} := @Std.OrientedCmp.eq_swap _ order _ _ _
  isLE_trans hleft hright :=
    @Std.TransCmp.isLE_trans _ order _ _ _ _ hright hleft

instance lawful_on (order : Order β) [Std.TransCmp order] (key : α → β) :
    Std.TransCmp (order.on key) where
  eq_swap {_ _} := @Std.OrientedCmp.eq_swap _ order _ _ _
  isLE_trans hleft hright :=
    @Std.TransCmp.isLE_trans _ order _ _ _ _ hleft hright

instance lawful_lexicographic (first : Order α) [Std.TransCmp first]
    (second : Order β) [Std.TransCmp second] :
    Std.TransCmp (first.lexicographic second) :=
  inferInstanceAs (Std.TransCmp
    (compareLex (first.on Prod.fst) (second.on Prod.snd)))

end Order

/-! The natural order of an element type, turned round any number of times. -/

inductive Ranking where
  | natural
  | reversed (inner : Ranking)
deriving DecidableEq

namespace Ranking

def order {α : Type} (base : Order α) : Ranking → Order α
  | .natural => base
  | .reversed inner => (inner.order base).reversed

def description : Ranking → String
  | .natural => "NaturalOrder"
  | .reversed inner => "Reversed(" ++ inner.description ++ ")"

end Ranking

end Containment
