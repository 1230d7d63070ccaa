import Containment.Json.Codec
import Containment.Json.Token

namespace Containment.Json

/-! The tokens of a value, and its compact text. -/

def joined : List (List Token) → List Token
  | [] => []
  | [part] => part
  | part :: rest => part ++ .comma :: joined rest

mutual

def tokens : Json → List Token
  | .null => [.null]
  | .bool value => [.bool value]
  | .number literal => [.number literal]
  | .string pieces => [.string pieces]
  | .array items => .openArray :: (joined (itemTokens items) ++ [.closeArray])
  | .object members => .openObject :: (joined (memberTokens members) ++ [.closeObject])

def itemTokens : List Json → List (List Token)
  | [] => []
  | item :: rest => item.tokens :: itemTokens rest

def memberTokens : List (List Piece × Json) → List (List Token)
  | [] => []
  | (name, value) :: rest =>
      (.string name :: .colon :: value.tokens) :: memberTokens rest

end

def compact (value : Json) : String :=
  String.ofList (value.tokens.flatMap Token.spell)

/-! A value is put together from its tokens one after another. What is begun and
not yet closed waits in a list of frames, the innermost first. -/

inductive Frame where
  /-- An array with the items that are complete, the last of them first. -/
  | items (done : List Json)
  /-- An object likewise, with the name of the member whose value is to come. -/
  | members (done : List (List Piece × Json)) (name : List Piece)

inductive Assembly where
  | value (frames : List Frame)
  | firstItem (frames : List Frame)
  | firstName (frames : List Frame)
  | laterName (done : List (List Piece × Json)) (frames : List Frame)
  | colon (done : List (List Piece × Json)) (name : List Piece) (frames : List Frame)
  | complete (value : Json) (frames : List Frame)

namespace Assembly

def begin (frames : List Frame) : Token → Option Assembly
  | .null => some (.complete .null frames)
  | .bool truth => some (.complete (.bool truth) frames)
  | .number literal => some (.complete (.number literal) frames)
  | .string pieces => some (.complete (.string pieces) frames)
  | .openArray => some (.firstItem frames)
  | .openObject => some (.firstName frames)
  | _ => none

def step : Assembly → Token → Option Assembly
  | .value frames, token => begin frames token
  | .firstItem frames, .closeArray => some (.complete (.array []) frames)
  | .firstItem frames, token => begin (.items [] :: frames) token
  | .firstName frames, .closeObject => some (.complete (.object []) frames)
  | .firstName frames, .string name => some (.colon [] name frames)
  | .laterName done frames, .string name => some (.colon done name frames)
  | .colon done name frames, .colon => some (.value (.members done name :: frames))
  | .complete last (.items done :: frames), .comma =>
      some (.value (.items (last :: done) :: frames))
  | .complete last (.items done :: frames), .closeArray =>
      some (.complete (.array (last :: done).reverse) frames)
  | .complete last (.members done name :: frames), .comma =>
      some (.laterName ((name, last) :: done) frames)
  | .complete last (.members done name :: frames), .closeObject =>
      some (.complete (.object ((name, last) :: done).reverse) frames)
  | _, _ => none

end Assembly

def ofTokens? (tokens : List Token) : Option Json := do
  match ← tokens.foldlM Assembly.step (.value []) with
  | .complete value [] => some value
  | _ => none

def ofText? (text : String) : Option Json := do
  ofTokens? (← Token.ofText? text.toList)

/-! The codec that a program runs with where it is given no other. -/

/-- The value of a numeral without sign, fraction and exponent. -/
def natural? : Json → Option Nat
  | .number literal =>
      if literal.all Char.isDigit then some (Nat.ofDigitChars 10 literal 0) else none
  | _ => none

/-- A number of more than 64 bits is not read as another one. -/
def number? (value : Json) : Option UInt64 := do
  let number ← value.natural?
  if number < UInt64.size then some (UInt64.ofNat number) else none

/-- A control character has to be given by its number. -/
def namePiece (character : Char) : Piece :=
  if Lexing.isControl character then .unit character.toNat else .plain character

def namePieces (name : String) : List Piece :=
  name.toList.map namePiece

def ofRecord (record : List (String × UInt64)) : Json :=
  .object (record.map fun field => (namePieces field.1, decimal field.2))

/-- Goes through members one after another. Of a name that is asked for there may be one
member, with a number; other names are passed over, but all of them have to be texts. -/
def numbersFrom? (names : List String) :
    (String → Option UInt64) → List (List Piece × Json) → Option (List UInt64)
  | met, [] => names.mapM met
  | met, (pieces, value) :: rest => do
      let text ← Piece.text? pieces
      match names.find? fun name => name.toList == text with
      | none => numbersFrom? names met rest
      | some name =>
          match met name with
          | some _ => none
          | none => numbersFrom? names (Codec.noted met name (← value.number?)) rest

/-- The numbers of a record, which may also be written as an array without names. -/
def numbers? (names : List String) : Json → Option (List UInt64)
  | .object members => numbersFrom? names (fun _ => none) members
  | .array items => if items.length = names.length then items.mapM number? else none
  | _ => none

def Codec.plain : Codec where
  write record := (ofRecord record).compact
  read names text := do numbers? names (← ofText? text)
  visit := numbersFrom?
  number := number?

end Containment.Json
