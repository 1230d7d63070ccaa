import Containment.Config.Json
import Containment.Proofs.Json.Codec
import Containment.Proofs.Json.Decimal

namespace Containment.Config

open Json (Codec Piece Text Spaced Spells Named valuesOf decimal)

/-! The configurations that a text spells. Of an object the two members count that bear the
names of the limits; of an array, what stands in it. -/

variable {members : List (List Piece × Json)} {items : List Json} {config : Config}

structure Carries (config : Config) (members : List (List Piece × Json)) : Prop where
  /-- Every name is a text, also of a member that a configuration does not have. -/
  named : ∀ member ∈ members, Named member.1
  maxSetSize : valuesOf maxSetSizeName members = [decimal config.maxSetSize]
  initialNodeCapacity :
    valuesOf initialNodeCapacityName members = [decimal config.initialNodeCapacity]

/-- What is no limit: a number with a sign, a fraction or an exponent, one that is too
large, and what is no number. -/
inductive Unfit : Json → Prop
  | negative {digits : List Char} : Unfit (.number ('-' :: digits))
  | fractional {literal : List Char} (hpoint : '.' ∈ literal) : Unfit (.number literal)
  | scaled {literal : List Char} {mark : Char} (hmark : mark ∈ ['e', 'E'])
      (hmem : mark ∈ literal) : Unfit (.number literal)
  | large {number : Nat} (hlarge : UInt64.size ≤ number) :
      Unfit (.number (Nat.toDigits 10 number))
  | noNumber {value : Json} (hvalue : ∀ literal, value ≠ .number literal) : Unfit value

theorem ne_decimal_of_not_digit {literal : List Char} {character : Char}
    (hmem : character ∈ literal) (hdigit : character.isDigit = false) (limit : UInt64) :
    Json.number literal ≠ decimal limit := by
  intro heq
  cases heq
  have hisDigit := Nat.isDigit_of_mem_toDigits (by decide) (by decide) hmem
  rw [hisDigit] at hdigit
  cases hdigit

theorem Unfit.ne_decimal {value : Json} (hunfit : Unfit value) (limit : UInt64) :
    value ≠ decimal limit := by
  cases hunfit with
  | negative => exact ne_decimal_of_not_digit List.mem_cons_self rfl limit
  | fractional hpoint => exact ne_decimal_of_not_digit hpoint rfl limit
  | scaled hmark hmem =>
      exact ne_decimal_of_not_digit hmem (Json.Numeral.isDigit_of_mark hmark) limit
  | @large number hlarge =>
      intro heq
      rw [decimal, Json.number.injEq] at heq
      rw [toDigits_injective heq] at hlarge
      exact absurd limit.toNat_lt (Nat.not_lt.mpr hlarge)
  | noNumber hvalue => exact hvalue _

/-! An object that spells no configuration does so by one of the two names, or by a name
that is no text. -/

inductive Spoiled (members : List (List Piece × Json)) : Prop
  | missing {name : String} (hname : name ∈ fieldNames) (hvalues : valuesOf name members = [])
  | repeated {name : String} (hname : name ∈ fieldNames)
      (hvalues : 1 < (valuesOf name members).length)
  | unfit {name : String} (hname : name ∈ fieldNames) {value : Json}
      (hvalue : value ∈ valuesOf name members) (hunfit : Unfit value)
  | nameless {member : List Piece × Json} (hmember : member ∈ members)
      (hname : ∀ text, ¬ Spells member.1 text)

theorem Carries.not_spoiled (hcarries : Carries config members) : ¬ Spoiled members := by
  have honly : ∀ name ∈ fieldNames, ∃ limit, valuesOf name members = [decimal limit] :=
    List.forall_mem_cons.mpr ⟨⟨_, hcarries.maxSetSize⟩,
      List.forall_mem_singleton.mpr ⟨_, hcarries.initialNodeCapacity⟩⟩
  intro hspoiled
  cases hspoiled with
  | missing hname hvalues =>
      obtain ⟨limit, heq⟩ := honly _ hname
      exact List.cons_ne_nil _ [] (heq.symm.trans hvalues)
  | repeated hname hvalues =>
      obtain ⟨limit, heq⟩ := honly _ hname
      rw [heq] at hvalues
      exact absurd hvalues (Nat.lt_irrefl 1)
  | unfit hname hvalue hunfit =>
      obtain ⟨limit, heq⟩ := honly _ hname
      rw [heq, List.mem_singleton] at hvalue
      exact hunfit.ne_decimal limit hvalue
  | nameless hmember hname =>
      obtain ⟨text, hspells⟩ := hcarries.named _ hmember
      exact hname text hspells

/-! Reading with a codec that does as it is documented. -/

theorem read_eq_some_iff {codec : Codec} {text : String} :
    read codec text = some config ↔ codec.read fieldNames text =
      some [config.maxSetSize, config.initialNodeCapacity] := by
  rw [read, Option.bind_eq_bind, Option.bind_eq_some_iff]
  constructor
  · rintro ⟨numbers, hnumbers, hconfig⟩
    rw [hnumbers]
    match numbers, hconfig with
    | [_, _], hconfig =>
        cases hconfig
        rfl
  · intro hnumbers
    exact ⟨_, hnumbers, rfl⟩

section Codec

variable {codec : Codec} (hcodec : codec.Documented)
include hcodec

theorem read_object_iff {text : String} (htext : Spaced (.object members) text.toList) :
    read codec text = some config ↔ Carries config members := by
  rw [read_eq_some_iff, hcodec.read_object_eq_some_iff htext, fieldNames]
  simp only [List.forall₂_cons, List.Forall₂.nil, and_true]
  exact ⟨fun hall => ⟨hall.1, hall.2.1, hall.2.2⟩,
    fun hcarries => ⟨hcarries.named, hcarries.maxSetSize, hcarries.initialNodeCapacity⟩⟩

theorem read_array_iff {text : String} (htext : Spaced (.array items) text.toList) :
    read codec text = some config ↔
      items = [decimal config.maxSetSize, decimal config.initialNodeCapacity] := by
  rw [read_eq_some_iff, hcodec.read_array_eq_some_iff htext]
  refine and_iff_right_of_imp ?_
  rintro rfl
  rfl

theorem read_write (config : Config) : read codec (config.write codec) = some config := by
  have hnames : fieldNames.Nodup := by decide
  rw [read_eq_some_iff]
  exact @Codec.Documented.read_write config.fields codec hcodec hnames

end Codec

end Containment.Config
