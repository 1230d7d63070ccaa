import Containment.Order.Keys

namespace Containment.Order

variable {α β : Type}

/-! The orders with names are lawful: the natural one by its type, the others since
they read a lawful order through a key. -/

instance lawful_natural [Ord α] [Std.TransOrd α] :
    Std.TransCmp (natural : Order α) :=
  inferInstanceAs (Std.TransCmp (compare : α → α → Ordering))

instance lawful_indifferent : Std.TransCmp (indifferent : Order α) where
  eq_swap {_ _} := rfl
  isLE_trans _ _ := rfl

instance lawful_byMagnitude : Std.TransCmp byMagnitude :=
  lawful_on natural Int.natAbs

instance lawful_byLastDigit : Std.TransCmp byLastDigit :=
  lawful_on natural fun number => number % 10

instance lawful_byParity : Std.TransCmp byParity :=
  lawful_on (lexicographic natural natural) fun number : Int => (number % 2, number)

instance lawful_byByteLength : Std.TransCmp byByteLength :=
  lawful_on natural String.utf8ByteSize

instance lawful_byFoldedCase : Std.TransCmp byFoldedCase :=
  lawful_on natural fun text : String => text.map Char.toLower

instance lawful_byLeadingByte : Std.TransCmp byLeadingByte :=
  lawful_on natural leadingByte

instance lawful_bySpelledNumber : Std.TransCmp bySpelledNumber :=
  lawful_on natural spelledNumber

instance lawful_byFirst (order : Order α) [Std.TransCmp order] :
    Std.TransCmp (byFirst order : Order (α × β)) :=
  lawful_on order Prod.fst

instance lawful_bySecond (order : Order β) [Std.TransCmp order] :
    Std.TransCmp (bySecond order : Order (α × β)) :=
  lawful_on order Prod.snd

end Containment.Order

namespace Containment.Ranking

instance lawful_order {α : Type} (base : Order α) [Std.TransCmp base]
    (ranking : Ranking) : Std.TransCmp (ranking.order base) := by
  induction ranking with
  | natural => assumption
  | reversed inner induction => exact Order.lawful_reversed (inner.order base)

end Containment.Ranking
