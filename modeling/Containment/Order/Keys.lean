import Containment.Order

namespace Containment.Order

/-! Integers by their distance from zero, by their last decimal digit counted
upwards from the multiple of ten below, and with the even ones first. -/

def byMagnitude : Order Int :=
  Order.on natural Int.natAbs

def byLastDigit : Order Int :=
  Order.on natural fun number => number % 10

def byParity : Order Int :=
  Order.on (lexicographic natural natural) fun number => (number % 2, number)

/-! Texts by the number of their bytes in UTF-8, without regard to the case of
ASCII letters, by their first byte in UTF-8, and by the number they spell. -/

def byByteLength : Order String :=
  Order.on natural String.utf8ByteSize

def byFoldedCase : Order String :=
  Order.on natural fun text => text.map Char.toLower

/-- The empty text has no first byte and comes before every other. -/
def leadingByte (text : String) : Nat :=
  match text.toUTF8[0]? with
  | none => 0
  | some byte => byte.toNat + 1

def byLeadingByte : Order String :=
  Order.on natural leadingByte

def largestNumber : Nat := UInt64.size - 1

/-- An optional plus sign and at least one decimal digit spell a number, up to
the largest; a text that spells none, or a larger one, counts as the largest. -/
def spelledNumber (text : String) : Nat :=
  let digits :=
    match text.toList with
    | '+' :: rest => rest
    | characters => characters
  if digits.isEmpty || !digits.all Char.isDigit then
    largestNumber
  else
    min (Nat.ofDigitChars 10 digits 0) largestNumber

def bySpelledNumber : Order String :=
  Order.on natural spelledNumber

/-! Pairs by one of their components. -/

variable {α β : Type}

def byFirst (order : Order α) : Order (α × β) :=
  order.on Prod.fst

def bySecond (order : Order β) : Order (α × β) :=
  order.on Prod.snd

end Containment.Order
