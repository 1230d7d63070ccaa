import Containment.Json.Plain
import Containment.Proofs.Json.Codec
import Containment.Proofs.Json.Decimal
import Containment.Proofs.Json.Reading

namespace Containment.Json

/-! What is documented of a codec holds of the plain one. -/

/-! Names. A control character is given by its number, and any other stands for itself or
behind a backslash. -/

theorem hexDigit_digitChar {value : Nat} (hlt : value < 16) :
    HexDigit (Nat.digitChar value) value := by
  have hall : ∀ value < 16,
      "0123456789abcdef".toList[value]? = some (Nat.digitChar value) := by decide
  exact Or.inl (hall value hlt)

theorem PieceText.spell_unit {code : Nat} (hlt : code < 0x10000) :
    PieceText (.unit code) (Token.spellPiece (.unit code)) := by
  have hdigit : ∀ number, HexDigit (Nat.digitChar (number % 16)) (number % 16) :=
    fun number => hexDigit_digitChar (Nat.mod_lt number (by decide))
  have hcode : 16 * (16 * (16 * (code / 0x1000 % 16) + code / 0x100 % 16) + code / 0x10 % 16) +
      code % 16 = code := by omega
  have hunit := PieceText.unit (hdigit (code / 0x1000)) (hdigit (code / 0x100))
    (hdigit (code / 0x10)) (hdigit code)
  rw [hcode] at hunit
  exact hunit

theorem PieceText.spell_plain {character : Char}
    (hcontrol : Lexing.isControl character = false) :
    PieceText (.plain character) (Token.spellPiece (.plain character)) := by
  simp only [Token.spellPiece, Bool.or_eq_true, decide_eq_true_eq, hcontrol]
  split
  next hspecial => rcases hspecial with rfl | rfl <;> exact .escaped (by decide)
  next hplain =>
    have hle : 0x20 ≤ character.toNat := Nat.not_lt.mp (of_decide_eq_false hcontrol)
    exact .plain hle (hplain <| Or.inl ·) (hplain <| Or.inr ·)

theorem toNat_lt_of_isControl {character : Char} (hcontrol : Lexing.isControl character = true) :
    character.toNat < 0x20 :=
  of_decide_eq_true hcontrol

theorem PieceText.spell_namePiece (character : Char) :
    PieceText (namePiece character) (Token.spellPiece (namePiece character)) := by
  unfold namePiece
  split
  case isTrue hcontrol =>
    exact .spell_unit (Nat.lt_trans (toNat_lt_of_isControl hcontrol) (by decide))
  case isFalse hcontrol => exact .spell_plain (Bool.eq_false_iff.mpr hcontrol)

theorem stringText_namePieces (name : String) :
    StringText (namePieces name) (Token.spell (.string (namePieces name))) := by
  have hpieces : PiecesText (namePieces name) ((namePieces name).flatMap Token.spellPiece) := by
    unfold namePieces
    induction name.toList with
    | nil => exact .nil
    | cons character text induction => exact .cons (.spell_namePiece character) induction
  exact ⟨_, hpieces, rfl⟩

theorem Spells.namePiece {pieces : List Piece} {text : List Char} (hrest : Spells pieces text)
    (character : Char) : Spells (namePiece character :: pieces) (character :: text) := by
  unfold Json.namePiece
  split
  case isTrue hcontrol =>
    have hlt := toNat_lt_of_isControl hcontrol
    have hhigh : Piece.highSurrogate character.toNat = false := by
      simp only [Piece.highSurrogate, Bool.and_eq_false_iff, decide_eq_false_iff_not]
      omega
    have hlow : Piece.lowSurrogate character.toNat = false := by
      simp only [Piece.lowSurrogate, Bool.and_eq_false_iff, decide_eq_false_iff_not]
      omega
    have hunit := Spells.unit hhigh hlow hrest
    rwa [Char.ofNat_toNat] at hunit
  case isFalse => exact .plain hrest

theorem spells_namePieces (name : String) : Spells (namePieces name) name.toList := by
  unfold namePieces
  induction name.toList with
  | nil => exact .nil
  | cons character text induction => exact induction.namePiece character

/-! Writing. -/

theorem text_decimal (number : UInt64) :
    Text (decimal number) (Nat.toDigits 10 number.toNat) :=
  .number (Numeral.whole_toDigits number.toNat).spelled

theorem memberText_namePieces (name : String) (number : UInt64) :
    MemberText (namePieces name, decimal number)
      (Token.spell (.string (namePieces name)) ++ ':' :: Nat.toDigits 10 number.toNat) :=
  .named blank_nil (stringText_namePieces name) blank_nil (text_decimal number).spaced

theorem membersText_ofRecord : (record : List (String × UInt64)) →
    MembersText (record.map fun field => (namePieces field.1, decimal field.2))
      ((joined (memberTokens (record.map fun field =>
        (namePieces field.1, decimal field.2)))).flatMap Token.spell)
  | [] => .none blank_nil
  | [field] => by
      have hmember := memberText_namePieces field.1 field.2
      simpa [memberTokens, joined, decimal, tokens, Token.spell] using MembersText.last hmember
  | field :: next :: record => by
      have hmore := MembersText.more (memberText_namePieces field.1 field.2)
        (membersText_ofRecord (next :: record))
      simpa [memberTokens, joined, decimal, tokens, Token.spell] using hmore

theorem spaced_ofRecord (record : List (String × UInt64)) :
    Spaced (ofRecord record) (ofRecord record).compact.toList := by
  rw [compact, String.toList_ofList, ofRecord, tokens, List.flatMap_cons, List.flatMap_append]
  exact (Text.object (membersText_ofRecord record)).spaced

theorem stands_ofRecord (record : List (String × UInt64)) :
    List.Forall₂ Stands record
      (record.map fun field => (namePieces field.1, decimal field.2)) := by
  rw [List.forall₂_map_right_iff]
  exact List.forall₂_same.mpr fun field _ => ⟨spells_namePieces field.1, rfl⟩

/-! Reading. -/

theorem natural?_toDigits (number : Nat) :
    (Json.number (Nat.toDigits 10 number)).natural? = some number := by
  have hdigits : (Nat.toDigits 10 number).all Char.isDigit = true :=
    List.all_eq_true.mpr (Numeral.whole_toDigits number).1.2
  rw [natural?, if_pos hdigits, Nat.ofDigitChars_ten_toDigits]

theorem number?_eq_some_iff {value : Json} {text : List Char} (htext : Text value text)
    {number : UInt64} : value.number? = some number ↔ value = decimal number := by
  constructor
  · intro hnumber
    obtain ⟨natural, hnatural, hrange⟩ := Option.bind_eq_some_iff.mp hnumber
    obtain ⟨hlt, heq⟩ := Option.ite_none_right_eq_some.mp hrange
    cases heq
    cases htext with
    | number hspelled =>
        rw [natural?] at hnatural
        obtain ⟨hdigits, hvalue⟩ := Option.ite_none_right_eq_some.mp hnatural
        cases hvalue
        rw [decimal, UInt64.toNat_ofNat_of_lt' hlt, Numeral.toDigits_ofDigitChars
          (hspelled.whole_of_digits (List.all_eq_true.mp hdigits))]
    | _ => cases hnatural
  · rintro rfl
    rw [number?, decimal, natural?_toDigits]
    exact (if_pos number.toNat_lt).trans (congrArg some UInt64.ofNat_toNat)

section Visit

variable {names : List String} {met : String → Option UInt64} {pieces : List Piece}
  {value : Json} {rest : List (List Piece × Json)}

theorem find?_name {name : String} (hname : name ∈ names) :
    (names.find? fun other => other.toList == name.toList) = some name := by
  cases hfound : names.find? fun other => other.toList == name.toList with
  | none =>
      have hnone := List.find?_eq_none.mp hfound name hname
      simp at hnone
  | some other =>
      have hsame := List.find?_some hfound
      rw [beq_iff_eq, String.toList_inj] at hsame
      rw [hsame]

theorem numbersFrom?_cons_of_spells {name : String} (hname : name ∈ names)
    (hspells : Spells pieces name.toList) :
    numbersFrom? names met ((pieces, value) :: rest) =
      match met name with
      | some _ => none
      | none => value.number?.bind fun number =>
          numbersFrom? names (Codec.noted met name number) rest := by
  rw [numbersFrom?, text?_eq_some_iff.mpr hspells, Option.bind_eq_bind, Option.bind_some,
    find?_name hname]
  rfl

theorem numbersFrom?_cons_of_unknown {text : List Char} (hspells : Spells pieces text)
    (hothers : ∀ name ∈ names, name.toList ≠ text) :
    numbersFrom? names met ((pieces, value) :: rest) = numbersFrom? names met rest := by
  have hnone : (names.find? fun other => other.toList == text) = none :=
    List.find?_eq_none.mpr fun name hname heq => hothers name hname (beq_iff_eq.mp heq)
  rw [numbersFrom?, text?_eq_some_iff.mpr hspells, Option.bind_eq_bind, Option.bind_some, hnone]

theorem numbersFrom?_cons_of_nameless (hnameless : ∀ text, ¬ Spells pieces text) :
    numbersFrom? names met ((pieces, value) :: rest) = none := by
  have hnone : Piece.text? pieces = none :=
    Option.eq_none_iff_forall_ne_some.mpr fun text htext =>
      hnameless text (text?_eq_some_iff.mp htext)
  rw [numbersFrom?, hnone]
  rfl

end Visit

theorem plain_read_of_spaced {value : Json} {text : String} (htext : Spaced value text.toList)
    (names : List String) : Codec.plain.read names text = numbers? names value := by
  have hread : Codec.plain.read names text = (ofText? text).bind (numbers? names) := rfl
  rw [hread, ofText?_of_spaced htext, Option.bind_some]

theorem Codec.plain_documented : Codec.plain.Documented where
  written record := ⟨_, stands_ofRecord record, spaced_ofRecord record⟩
  object names members text htext := plain_read_of_spaced htext names
  array names items text htext := plain_read_of_spaced htext names
  ended names met := rfl
  first names met name pieces value rest hname hspells hmet := by
    refine (numbersFrom?_cons_of_spells hname hspells).trans ?_
    rw [hmet]
    rfl
  again names met name pieces value rest hname hspells hmet := by
    obtain ⟨number, hnumber⟩ := Option.ne_none_iff_exists'.mp hmet
    refine (numbersFrom?_cons_of_spells hname hspells).trans ?_
    rw [hnumber]
  unknown names met text pieces value rest hspells hothers :=
    numbersFrom?_cons_of_unknown hspells hothers
  nameless names met pieces value rest hnameless := numbersFrom?_cons_of_nameless hnameless
  number_eq_some_iff value text number htext := number?_eq_some_iff htext

end Containment.Json
