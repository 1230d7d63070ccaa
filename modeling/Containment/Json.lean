namespace Containment

/-! JSON values as they are written. A string is a sequence of pieces: characters, and
UTF-16 code units that the text gives by their number. Numbers keep their spelling, and the
members of an object keep their order and may repeat a name. -/

inductive Json.Piece where
  | plain (character : Char)
  | unit (code : Nat)
deriving DecidableEq

inductive Json where
  | null
  | bool (value : Bool)
  | number (literal : List Char)
  | string (pieces : List Json.Piece)
  | array (items : List Json)
  | object (members : List (List Json.Piece × Json))

namespace Json

/-- A number of 64 bits in decimal digits. -/
def decimal (value : UInt64) : Json :=
  .number (Nat.toDigits 10 value.toNat)

/-! Two code units that form a surrogate pair are one character; a surrogate without its
partner is none. -/

namespace Piece

def highSurrogate (code : Nat) : Bool :=
  0xD800 ≤ code && code ≤ 0xDBFF

def lowSurrogate (code : Nat) : Bool :=
  0xDC00 ≤ code && code ≤ 0xDFFF

def paired (high low : Nat) : Char :=
  Char.ofNat (0x10000 + (high - 0xD800) * 0x400 + (low - 0xDC00))

end Piece

end Json

end Containment
