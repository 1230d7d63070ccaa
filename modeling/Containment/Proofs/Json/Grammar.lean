import Containment.Json.Token

namespace Containment.Json

/-! The grammar of JSON text, RFC 8259, as a relation between values and texts. It says
nothing of how a text is read, and many texts spell one value. -/

def blanks : List Char := [' ', '\t', '\n', '\r']

/-- Blanks may stand before and after every token. -/
def Blank (text : List Char) : Prop :=
  ∀ character ∈ text, character ∈ blanks

/-! Numerals. Only the whole part has to be there. -/

namespace Numeral

def Digits (text : List Char) : Prop :=
  text ≠ [] ∧ ∀ character ∈ text, character.isDigit = true

/-- No zero stands in front of another digit. -/
def Whole (text : List Char) : Prop :=
  Digits text ∧ (text.head? = some '0' → text = ['0'])

inductive Fraction : List Char → Prop
  | absent : Fraction []
  | present {digits : List Char} (hdigits : Digits digits) : Fraction ('.' :: digits)

inductive Exponent : List Char → Prop
  | absent : Exponent []
  | present {mark : Char} {sign digits : List Char} (hmark : mark ∈ ['e', 'E'])
      (hsign : sign ∈ [[], ['+'], ['-']]) (hdigits : Digits digits) :
      Exponent (mark :: (sign ++ digits))

inductive Spelled : List Char → Prop
  | parts {sign whole fraction exponent : List Char} (hsign : sign ∈ [[], ['-']])
      (hwhole : Whole whole) (hfraction : Fraction fraction) (hexponent : Exponent exponent) :
      Spelled (sign ++ (whole ++ (fraction ++ exponent)))

end Numeral

/-! Strings. A character stands for itself, or for another one behind a backslash, or it
is given by the four hexadecimal digits of a code unit. -/

/-- The letters that stand behind a backslash, and what they stand for. -/
def escapes : List (Char × Char) :=
  [('"', '"'), ('\\', '\\'), ('/', '/'), ('b', '\x08'), ('f', '\x0c'), ('n', '\n'),
    ('r', '\r'), ('t', '\t')]

def HexDigit (character : Char) (value : Nat) : Prop :=
  "0123456789abcdef".toList[value]? = some character ∨
    "0123456789ABCDEF".toList[value]? = some character

inductive PieceText : Piece → List Char → Prop
  | plain {character : Char} (hcontrol : 0x20 ≤ character.toNat) (hquote : character ≠ '"')
      (hbackslash : character ≠ '\\') : PieceText (.plain character) [character]
  | escaped {letter character : Char} (hescape : (letter, character) ∈ escapes) :
      PieceText (.plain character) ['\\', letter]
  | unit {first second third fourth : Char} {high upper lower low : Nat}
      (hfirst : HexDigit first high) (hsecond : HexDigit second upper)
      (hthird : HexDigit third lower) (hfourth : HexDigit fourth low) :
      PieceText (.unit (16 * (16 * (16 * high + upper) + lower) + low))
        ['\\', 'u', first, second, third, fourth]

inductive PiecesText : List Piece → List Char → Prop
  | nil : PiecesText [] []
  | cons {piece : Piece} {pieces : List Piece} {text rest : List Char}
      (hpiece : PieceText piece text) (hrest : PiecesText pieces rest) :
      PiecesText (piece :: pieces) (text ++ rest)

def StringText (pieces : List Piece) (text : List Char) : Prop :=
  ∃ body, PiecesText pieces body ∧ text = '"' :: (body ++ ['"'])

/-! What a string says. A code unit says the character of its number, but a surrogate says
one only together with its partner; with such a unit alone a string is no text. -/

inductive Spells : List Piece → List Char → Prop
  | nil : Spells [] []
  | plain {character : Char} {pieces : List Piece} {text : List Char}
      (hrest : Spells pieces text) : Spells (.plain character :: pieces) (character :: text)
  | unit {code : Nat} {pieces : List Piece} {text : List Char}
      (hhigh : Piece.highSurrogate code = false) (hlow : Piece.lowSurrogate code = false)
      (hrest : Spells pieces text) : Spells (.unit code :: pieces) (Char.ofNat code :: text)
  | pair {high low : Nat} {pieces : List Piece} {text : List Char}
      (hhigh : Piece.highSurrogate high = true) (hlow : Piece.lowSurrogate low = true)
      (hrest : Spells pieces text) :
      Spells (.unit high :: .unit low :: pieces) (Piece.paired high low :: text)

theorem text?_eq_some_iff {pieces : List Piece} {text : List Char} :
    Piece.text? pieces = some text ↔ Spells pieces text := by
  constructor
  · intro htext
    fun_induction Piece.text? pieces generalizing text with
    | case1 =>
        cases htext
        exact .nil
    | case2 character rest induction =>
        obtain ⟨later, hlater, rfl⟩ := Option.map_eq_some_iff.mp htext
        exact .plain (induction hlater)
    | case3 high low rest hhigh hlow induction =>
        obtain ⟨later, hlater, rfl⟩ := Option.map_eq_some_iff.mp htext
        exact .pair hhigh hlow (induction hlater)
    | case4 => cases htext
    | case5 => cases htext
    | case6 high low rest hhigh hlow induction =>
        obtain ⟨later, hlater, rfl⟩ := Option.map_eq_some_iff.mp htext
        exact .unit (Bool.eq_false_iff.mpr hhigh) (Bool.eq_false_iff.mpr hlow)
          (induction hlater)
    | case7 => cases htext
    | case8 code rest hrest hplain induction =>
        obtain ⟨later, hlater, rfl⟩ := Option.map_eq_some_iff.mp htext
        rw [Bool.or_eq_true, not_or] at hplain
        exact .unit (Bool.eq_false_iff.mpr hplain.1)
          (Bool.eq_false_iff.mpr hplain.2) (induction hlater)
  · intro hspells
    induction hspells with
    | nil => rfl
    | plain _ induction => rw [Piece.text?, induction]; rfl
    | @unit code pieces text hhigh hlow _ induction =>
        match pieces, induction with
        | .unit low :: rest, induction =>
            rw [Piece.text?, hhigh, hlow, induction]
            rfl
        | [], induction | .plain _ :: _, induction =>
            simp [Piece.text?, hhigh, hlow] at induction ⊢
            exact induction
    | pair hhigh hlow _ induction => rw [Piece.text?, if_pos hhigh, if_pos hlow, induction]; rfl

instance (pieces : List Piece) (text : List Char) : Decidable (Spells pieces text) :=
  decidable_of_iff _ text?_eq_some_iff

theorem Spells.unique {pieces : List Piece} {text other : List Char}
    (hspells : Spells pieces text) (hother : Spells pieces other) : text = other :=
  Option.some.inj ((text?_eq_some_iff.mpr hspells).symm.trans (text?_eq_some_iff.mpr hother))

/-! Values, from their first character to their last, and what stands between brackets. A
whole JSON text is a value with blanks around it. -/

mutual

inductive Text : Json → List Char → Prop
  | null : Text .null "null".toList
  | truth : Text (.bool true) "true".toList
  | falsehood : Text (.bool false) "false".toList
  | number {literal : List Char} (hspelled : Numeral.Spelled literal) :
      Text (.number literal) literal
  | string {pieces : List Piece} {text : List Char} (hstring : StringText pieces text) :
      Text (.string pieces) text
  | array {items : List Json} {body : List Char} (hitems : ItemsText items body) :
      Text (.array items) ('[' :: (body ++ [']']))
  | object {members : List (List Piece × Json)} {body : List Char}
      (hmembers : MembersText members body) :
      Text (.object members) ('\x7b' :: (body ++ ['\x7d']))

inductive Spaced : Json → List Char → Prop
  | around {value : Json} {before text after : List Char} (hbefore : Blank before)
      (htext : Text value text) (hafter : Blank after) :
      Spaced value (before ++ (text ++ after))

inductive ItemsText : List Json → List Char → Prop
  | none {gap : List Char} (hgap : Blank gap) : ItemsText [] gap
  | last {item : Json} {text : List Char} (hitem : Spaced item text) : ItemsText [item] text
  | more {item next : Json} {items : List Json} {text rest : List Char}
      (hitem : Spaced item text) (hrest : ItemsText (next :: items) rest) :
      ItemsText (item :: next :: items) (text ++ ',' :: rest)

inductive MemberText : List Piece × Json → List Char → Prop
  | named {name : List Piece} {value : Json} {before spelled after text : List Char}
      (hbefore : Blank before) (hname : StringText name spelled) (hafter : Blank after)
      (hvalue : Spaced value text) :
      MemberText (name, value) (before ++ (spelled ++ (after ++ ':' :: text)))

inductive MembersText : List (List Piece × Json) → List Char → Prop
  | none {gap : List Char} (hgap : Blank gap) : MembersText [] gap
  | last {member : List Piece × Json} {text : List Char} (hmember : MemberText member text) :
      MembersText [member] text
  | more {member next : List Piece × Json} {members : List (List Piece × Json)}
      {text rest : List Char} (hmember : MemberText member text)
      (hrest : MembersText (next :: members) rest) :
      MembersText (member :: next :: members) (text ++ ',' :: rest)

end

/-! What stands in a text is itself spelled there. -/

theorem blank_nil : Blank [] :=
  fun _ hcharacter => absurd hcharacter List.not_mem_nil

theorem Text.spaced {value : Json} {text : List Char} (htext : Text value text) :
    Spaced value text := by
  have hspaced := Spaced.around blank_nil htext blank_nil
  rwa [List.nil_append, List.append_nil] at hspaced

theorem Spaced.exists_text {value : Json} {text : List Char} :
    Spaced value text → ∃ spelled, Text value spelled
  | .around _ htext _ => ⟨_, htext⟩

theorem Spaced.exists_itemsText {items : List Json} {text : List Char}
    (hspaced : Spaced (.array items) text) : ∃ body, ItemsText items body := by
  obtain ⟨spelled, htext⟩ := hspaced.exists_text
  cases htext with
  | array hitems => exact ⟨_, hitems⟩

theorem Spaced.exists_membersText {members : List (List Piece × Json)} {text : List Char}
    (hspaced : Spaced (.object members) text) : ∃ body, MembersText members body := by
  obtain ⟨spelled, htext⟩ := hspaced.exists_text
  cases htext with
  | object hmembers => exact ⟨_, hmembers⟩

theorem MemberText.exists_text {member : List Piece × Json} {text : List Char} :
    MemberText member text → ∃ spelled, Text member.2 spelled
  | .named _ _ _ hvalue => hvalue.exists_text

theorem ItemsText.exists_text {items : List Json} {body : List Char} :
    ItemsText items body → ∀ item ∈ items, ∃ spelled, Text item spelled
  | .none _ => fun _ hitem => absurd hitem List.not_mem_nil
  | .last hlast => List.forall_mem_singleton.mpr hlast.exists_text
  | .more hfirst hrest => List.forall_mem_cons.mpr ⟨hfirst.exists_text, hrest.exists_text⟩

theorem MembersText.exists_text {members : List (List Piece × Json)} {body : List Char} :
    MembersText members body → ∀ member ∈ members, ∃ spelled, Text member.2 spelled
  | .none _ => fun _ hmember => absurd hmember List.not_mem_nil
  | .last hlast => List.forall_mem_singleton.mpr hlast.exists_text
  | .more hfirst hrest => List.forall_mem_cons.mpr ⟨hfirst.exists_text, hrest.exists_text⟩

end Containment.Json
