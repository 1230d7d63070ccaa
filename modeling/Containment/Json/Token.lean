import Containment.Json

namespace Containment.Json

/-! The lexical words of JSON text, RFC 8259. -/

inductive Token where
  | openArray
  | closeArray
  | openObject
  | closeObject
  | comma
  | colon
  | null
  | bool (value : Bool)
  | number (literal : List Char)
  | string (pieces : List Piece)
deriving DecidableEq

/-! Numerals: a sign, digits without needless zeros in front, a fraction and an
exponent. Each part takes its characters off the front or refuses them. -/

namespace Numeral

def someDigits : List Char → Option (List Char)
  | digit :: rest =>
      if digit.isDigit then some (rest.dropWhile Char.isDigit) else none
  | [] => none

def unsigned : List Char → List Char
  | '-' :: rest => rest
  | characters => characters

def whole : List Char → Option (List Char)
  | '0' :: rest => some rest
  | characters => someDigits characters

def fraction : List Char → Option (List Char)
  | '.' :: rest => someDigits rest
  | characters => some characters

def exponentSigned : List Char → List Char
  | '+' :: rest => rest
  | '-' :: rest => rest
  | characters => characters

def exponent : List Char → Option (List Char)
  | 'e' :: rest => someDigits (exponentSigned rest)
  | 'E' :: rest => someDigits (exponentSigned rest)
  | characters => some characters

def isWellFormed (literal : List Char) : Bool :=
  (whole (unsigned literal) >>= fraction >>= exponent) == some []

/-- A character that can occur in a numeral. -/
def continues (character : Char) : Bool :=
  character.isDigit || "+-.eE".toList.contains character

end Numeral

/-! Strings as text. -/

namespace Piece

def text? : List Piece → Option (List Char)
  | [] => some []
  | .plain character :: rest => (text? rest).map (character :: ·)
  | .unit high :: .unit low :: rest =>
      if highSurrogate high then
        if lowSurrogate low then (text? rest).map (paired high low :: ·) else none
      else if lowSurrogate high then none
      else (text? (.unit low :: rest)).map (Char.ofNat high :: ·)
  | .unit code :: rest =>
      if highSurrogate code || lowSurrogate code then none
      else (text? rest).map (Char.ofNat code :: ·)

end Piece

/-! The lexer reads a character at a time. -/

inductive Lexing where
  | between
  | word (read : List Char)
  | numeral (read : List Char)
  | string (read : List Piece)
  /-- After a backslash. -/
  | escape (read : List Piece)
  /-- After the digits of a code unit that have been read. -/
  | codeUnit (read : List Piece) (digits : Nat) (value : Nat)
deriving DecidableEq

namespace Lexing

def isBlank (character : Char) : Bool :=
  character == ' ' || character == '\t' || character == '\n' || character == '\r'

def isLowercase (character : Char) : Bool :=
  'a' ≤ character && character ≤ 'z'

/-- A character with nothing pending before it. -/
def start (character : Char) : Option (List Token × Lexing) :=
  if isBlank character then some ([], .between)
  else if isLowercase character then some ([], .word [character])
  else if character == '-' || character.isDigit then some ([], .numeral [character])
  else
    match character with
    | '[' => some ([.openArray], .between)
    | ']' => some ([.closeArray], .between)
    | '\x7b' => some ([.openObject], .between)
    | '\x7d' => some ([.closeObject], .between)
    | ',' => some ([.comma], .between)
    | ':' => some ([.colon], .between)
    | '"' => some ([], .string [])
    | _ => none

def wordToken? (word : List Char) : Option Token :=
  if word = "null".toList then some .null
  else if word = "true".toList then some (.bool true)
  else if word = "false".toList then some (.bool false)
  else none

/-- What is pending when no character of it follows. -/
def finish : Lexing → Option (List Token)
  | .between => some []
  | .word read => (wordToken? read.reverse).map ([·])
  | .numeral read =>
      if Numeral.isWellFormed read.reverse then some [.number read.reverse] else none
  | _ => none

def finishAndStart (pending : Lexing) (character : Char) :
    Option (List Token × Lexing) := do
  let tokens ← pending.finish
  let (more, next) ← start character
  return (tokens ++ more, next)

def hexDigit? (character : Char) : Option Nat :=
  if character.isDigit then some (character.toNat - '0'.toNat)
  else if 'a' ≤ character && character ≤ 'f' then some (character.toNat - 'a'.toNat + 10)
  else if 'A' ≤ character && character ≤ 'F' then some (character.toNat - 'A'.toNat + 10)
  else none

/-- The characters that a backslash and one further character stand for. -/
def escaped? : Char → Option Char
  | '"' => some '"'
  | '\\' => some '\\'
  | '/' => some '/'
  | 'b' => some '\x08'
  | 'f' => some '\x0c'
  | 'n' => some '\n'
  | 'r' => some '\r'
  | 't' => some '\t'
  | _ => none

/-- Control characters do not stand in strings. -/
def isControl (character : Char) : Bool :=
  character.toNat < 0x20

def step (state : Lexing) (character : Char) : Option (List Token × Lexing) :=
  match state with
  | .between => start character
  | .word read =>
      if isLowercase character then some ([], .word (character :: read))
      else finishAndStart (.word read) character
  | .numeral read =>
      if Numeral.continues character then some ([], .numeral (character :: read))
      else finishAndStart (.numeral read) character
  | .string read =>
      if character = '"' then some ([.string read.reverse], .between)
      else if character = '\\' then some ([], .escape read)
      else if isControl character then none
      else some ([], .string (.plain character :: read))
  | .escape read =>
      if character = 'u' then some ([], .codeUnit read 0 0)
      else (escaped? character).map fun plain => ([], .string (.plain plain :: read))
  | .codeUnit read digits value =>
      (hexDigit? character).map fun digit =>
        let value := 16 * value + digit
        if digits = 3 then ([], .string (.unit value :: read))
        else ([], .codeUnit read (digits + 1) value)

def run : Lexing → List Char → Option (List Token)
  | state, [] => state.finish
  | state, character :: rest => do
      let (tokens, next) ← state.step character
      let later ← run next rest
      return tokens ++ later

end Lexing

namespace Token

def ofText? (text : List Char) : Option (List Token) :=
  Lexing.run .between text

/-! The plainest spelling of a token. -/

def hexDigits (code : Nat) : List Char :=
  [code / 0x1000 % 16, code / 0x100 % 16, code / 0x10 % 16, code % 16].map Nat.digitChar

def spellPiece : Piece → List Char
  | .plain character =>
      if character = '"' || character = '\\' then ['\\', character]
      else if Lexing.isControl character then '\\' :: 'u' :: hexDigits character.toNat
      else [character]
  | .unit code => '\\' :: 'u' :: hexDigits code

def spell : Token → List Char
  | .openArray => ['[']
  | .closeArray => [']']
  | .openObject => ['\x7b']
  | .closeObject => ['\x7d']
  | .comma => [',']
  | .colon => [':']
  | .null => "null".toList
  | .bool true => "true".toList
  | .bool false => "false".toList
  | .number literal => literal
  | .string pieces => '"' :: (pieces.flatMap spellPiece ++ ['"'])

end Token

end Containment.Json
