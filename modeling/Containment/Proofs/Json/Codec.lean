import Containment.Json.Codec
import Containment.Proofs.Correspondence
import Containment.Proofs.Digits
import Containment.Proofs.Json.Grammar

namespace Containment.Json

/-! A codec is known by its documentation alone, and the documentation speaks of one step at a
time: of a text as the grammar has it, of the next member of an object, of a single number. -/

/-- The member of an object that a field is written as. -/
def Stands (field : String × UInt64) (member : List Piece × Json) : Prop :=
  Spells member.1 field.1.toList ∧ member.2 = decimal field.2

structure Codec.Documented (codec : Codec) : Prop where
  /-- A record is written as an object, its fields one after another. -/
  written : ∀ record, ∃ members, List.Forall₂ Stands record members ∧
    Spaced (.object members) (codec.write record).toList
  /-- An object is gone through from its first member on. -/
  object : ∀ names members (text : String), Spaced (.object members) text.toList →
    codec.read names text = codec.visit names (fun _ => none) members
  /-- An array has one number for each name, in their order. -/
  array : ∀ names items (text : String), Spaced (.array items) text.toList →
    codec.read names text =
      if items.length = names.length then items.mapM codec.number else none
  /-- In the end every name has to have been met. -/
  ended : ∀ names met, codec.visit names met [] = names.mapM met
  /-- A name that is asked for is met with its number. -/
  first : ∀ (names : List String) (met : String → Option UInt64) (name : String)
    (pieces : List Piece) (value : Json) (rest : List (List Piece × Json)),
    name ∈ names → Spells pieces name.toList → met name = none →
      codec.visit names met ((pieces, value) :: rest) =
        (codec.number value).bind fun number =>
          codec.visit names (noted met name number) rest
  again : ∀ (names : List String) (met : String → Option UInt64) (name : String)
    (pieces : List Piece) (value : Json) (rest : List (List Piece × Json)),
    name ∈ names → Spells pieces name.toList → met name ≠ none →
      codec.visit names met ((pieces, value) :: rest) = none
  /-- A name that is not asked for is passed over, together with its value. -/
  unknown : ∀ (names : List String) (met : String → Option UInt64) (text : List Char)
    (pieces : List Piece) (value : Json) (rest : List (List Piece × Json)),
    Spells pieces text → (∀ name ∈ names, name.toList ≠ text) →
      codec.visit names met ((pieces, value) :: rest) = codec.visit names met rest
  /-- Every name has to be a text, whether or not it is asked for. -/
  nameless : ∀ (names : List String) (met : String → Option UInt64) (pieces : List Piece)
    (value : Json) (rest : List (List Piece × Json)),
    (∀ text, ¬ Spells pieces text) →
      codec.visit names met ((pieces, value) :: rest) = none
  /-- A number of 64 bits is read from its decimal digits and from nothing else. -/
  number_eq_some_iff : ∀ (value : Json) (text : List Char) (number : UInt64), Text value text →
    (codec.number value = some number ↔ value = decimal number)

/-! The members of an object, by their names. -/

/-- The values that the members of a name have, in their order. -/
def valuesOf (name : String) (members : List (List Piece × Json)) : List Json :=
  (members.filter fun member => Spells member.1 name.toList).map Prod.snd

def Named (pieces : List Piece) : Prop :=
  ∃ text, Spells pieces text

instance (pieces : List Piece) : Decidable (Named pieces) :=
  decidable_of_iff ((Piece.text? pieces).isSome = true) <| by
    simp only [Named, Option.isSome_iff_exists, text?_eq_some_iff]

section Members

variable {name : String} {pieces : List Piece} {value : Json}
  {members : List (List Piece × Json)}

theorem valuesOf_cons_of_spells (hspells : Spells pieces name.toList) :
    valuesOf name ((pieces, value) :: members) = value :: valuesOf name members := by
  rw [valuesOf, List.filter_cons, if_pos (decide_eq_true hspells), List.map_cons, valuesOf]

theorem valuesOf_cons_of_not_spells (hspells : ¬ Spells pieces name.toList) :
    valuesOf name ((pieces, value) :: members) = valuesOf name members := by
  rw [valuesOf, List.filter_cons, if_neg (by simpa using hspells), valuesOf]

end Members

/-! What going through the members of an object comes to. -/

/-- The name has this number: it was met with it before, or one member has it. -/
def Settles (met : String → Option UInt64) (members : List (List Piece × Json)) (name : String)
    (number : UInt64) : Prop :=
  (met name = some number ∧ valuesOf name members = []) ∨
    (met name = none ∧ valuesOf name members = [decimal number])

section Settles

variable {met : String → Option UInt64} {name other : String} {number found : UInt64}
  {pieces : List Piece} {value : Json} {members : List (List Piece × Json)}

theorem settles_nil : Settles met [] name number ↔ met name = some number := by
  simp [Settles, valuesOf]

theorem settles_cons_of_not_spells (hspells : ¬ Spells pieces name.toList) :
    Settles met ((pieces, value) :: members) name number ↔ Settles met members name number := by
  rw [Settles, Settles, valuesOf_cons_of_not_spells hspells]

theorem settles_cons_of_spells (hspells : Spells pieces name.toList) :
    Settles met ((pieces, value) :: members) name number ↔
      met name = none ∧ value = decimal number ∧ valuesOf name members = [] := by
  simp [Settles, valuesOf_cons_of_spells hspells]

theorem decimal_injective : Function.Injective decimal := by
  intro left right heq
  rw [decimal, decimal, Json.number.injEq] at heq
  exact UInt64.toNat_inj.mp (toDigits_injective heq)

/-- Once a name is met, the later members must not have it. -/
theorem settles_cons_iff_noted (hspells : Spells pieces name.toList) (hmet : met name = none)
    (hvalue : value = decimal found) :
    Settles met ((pieces, value) :: members) other number ↔
      Settles (Codec.noted met name found) members other number := by
  by_cases hsame : other = name
  · subst hsame
    rw [settles_cons_of_spells hspells, Settles, Codec.noted, if_pos rfl, hvalue]
    simp [hmet, decimal_injective.eq_iff]
  · have hother : ¬ Spells pieces other.toList := fun hspellsOther =>
      hsame (String.toList_inj.mp (hspellsOther.unique hspells))
    rw [settles_cons_of_not_spells hother, Settles, Settles, Codec.noted, if_neg hsame]

/-! All names at once, when one more member is in front. -/

variable {names : List String} {numbers : List UInt64} {text : List Char}

theorem forall₂_settles_cons_iff_of_ne (hspells : Spells pieces text)
    (hothers : ∀ name ∈ names, name.toList ≠ text) :
    List.Forall₂ (Settles met ((pieces, value) :: members)) names numbers ↔
      List.Forall₂ (Settles met members) names numbers :=
  forall₂_iff_of_mem fun name hname _ =>
    settles_cons_of_not_spells fun hother => hothers name hname (hother.unique hspells)

theorem forall₂_settles_cons_iff_noted (hspells : Spells pieces name.toList)
    (hmet : met name = none) (hvalue : value = decimal found) :
    List.Forall₂ (Settles met ((pieces, value) :: members)) names numbers ↔
      List.Forall₂ (Settles (Codec.noted met name found) members) names numbers :=
  forall₂_iff_of_mem fun _ _ _ => settles_cons_iff_noted hspells hmet hvalue

/-- What settles the name of the first member does so by that member. -/
theorem eq_decimal_of_forall₂_settles (hname : name ∈ names)
    (hspells : Spells pieces name.toList)
    (hall : List.Forall₂ (Settles met ((pieces, value) :: members)) names numbers) :
    met name = none ∧ ∃ number, value = decimal number := by
  obtain ⟨number, _, hsettles⟩ := exists_of_forall₂ hall.flip hname
  obtain ⟨hmet, hvalue, _⟩ := (settles_cons_of_spells hspells).mp hsettles
  exact ⟨hmet, number, hvalue⟩

end Settles

section Documented

variable {codec : Codec} (hcodec : codec.Documented)
include hcodec

/-- By induction on the members, whatever was met before. A member that a name is asked of
settles that name and leaves the others as they are; every other member leaves all of them. -/
theorem Codec.Documented.visit_eq_some_iff {names : List String}
    {members : List (List Piece × Json)}
    (hvalues : ∀ member ∈ members, ∃ text, Text member.2 text)
    (met : String → Option UInt64) {numbers : List UInt64} :
    codec.visit names met members = some numbers ↔
      (∀ member ∈ members, Named member.1) ∧
        List.Forall₂ (Settles met members) names numbers := by
  induction members generalizing met with
  | nil =>
      have hsettles : List.Forall₂ (Settles met []) names numbers ↔
          List.Forall₂ (fun name number => met name = some number) names numbers :=
        forall₂_iff_of_mem fun _ _ _ => settles_nil
      rw [hcodec.ended, mapM_eq_some_iff, hsettles]
      exact (and_iff_right fun _ hmember => absurd hmember List.not_mem_nil).symm
  | cons member members induction =>
      obtain ⟨pieces, value⟩ := member
      obtain ⟨⟨spelled, hspelled⟩, hlater⟩ := List.forall_mem_cons.mp hvalues
      rw [List.forall_mem_cons]
      by_cases hnamed : Named pieces
      case neg =>
        rw [hcodec.nameless _ _ _ _ _ (not_exists.mp hnamed)]
        exact ⟨fun hnone => (nomatch hnone), fun hall => absurd hall.1.1 hnamed⟩
      rw [and_iff_right hnamed]
      obtain ⟨text, hspells⟩ := hnamed
      by_cases hasked : ∃ name ∈ names, name.toList = text
      case neg =>
        have hothers : ∀ name ∈ names, name.toList ≠ text := by simpa using hasked
        rw [hcodec.unknown _ _ _ _ _ _ hspells hothers, induction hlater,
          forall₂_settles_cons_iff_of_ne hspells hothers]
      obtain ⟨name, hname, rfl⟩ := hasked
      cases hmet : met name with
      | some earlier =>
          have hne : met name ≠ none := hmet ▸ Option.some_ne_none earlier
          rw [hcodec.again _ _ _ _ _ _ hname hspells hne]
          exact ⟨fun hnone => (nomatch hnone), fun hall =>
            absurd (eq_decimal_of_forall₂_settles hname hspells hall.2).1 hne⟩
      | none =>
          rw [hcodec.first _ _ _ _ _ _ hname hspells hmet]
          cases hnumber : codec.number value with
          | none =>
              refine ⟨fun hnone => (nomatch hnone), fun hall => ?_⟩
              obtain ⟨_, number, hvalue⟩ := eq_decimal_of_forall₂_settles hname hspells hall.2
              rw [(hcodec.number_eq_some_iff value spelled number hspelled).mpr hvalue] at hnumber
              cases hnumber
          | some number =>
              have hvalue :=
                (hcodec.number_eq_some_iff value spelled number hspelled).mp hnumber
              rw [Option.bind_some, induction hlater,
                forall₂_settles_cons_iff_noted hspells hmet hvalue]

/-- A record is read from an object in which every name is a text and each name that is asked
for has one member, with its number. -/
theorem Codec.Documented.read_object_eq_some_iff {names : List String}
    {members : List (List Piece × Json)} {text : String}
    (htext : Spaced (.object members) text.toList) {numbers : List UInt64} :
    codec.read names text = some numbers ↔
      (∀ member ∈ members, Named member.1) ∧
        List.Forall₂ (fun name number => valuesOf name members = [decimal number]) names
          numbers := by
  obtain ⟨body, hbody⟩ := htext.exists_membersText
  rw [hcodec.object names members text htext, hcodec.visit_eq_some_iff hbody.exists_text]
  refine and_congr_right fun _ => forall₂_iff_of_mem fun name _ number => ?_
  simp only [Settles, reduceCtorEq, false_and, true_and, false_or]

theorem Codec.Documented.read_array_eq_some_iff {names : List String} {items : List Json}
    {text : String} (htext : Spaced (.array items) text.toList) {numbers : List UInt64} :
    codec.read names text = some numbers ↔
      items.length = names.length ∧ items = numbers.map decimal := by
  obtain ⟨body, hbody⟩ := htext.exists_itemsText
  have hitems : items.mapM codec.number = some numbers ↔ items = numbers.map decimal := by
    rw [mapM_eq_some_iff, ← List.forall₂_eq_eq_eq, List.forall₂_map_right_iff]
    apply forall₂_iff_of_mem
    intro item hitem number
    obtain ⟨spelled, hspelled⟩ := hbody.exists_text item hitem
    exact hcodec.number_eq_some_iff item spelled number hspelled
  rw [hcodec.array names items text htext]
  split
  case isTrue hlength => rw [hitems, and_iff_right hlength]
  case isFalse hlength => exact ⟨fun hnone => (nomatch hnone), fun hall => absurd hall.1 hlength⟩

end Documented

/-! A record that is written is read back. -/

section Stands

variable {record : List (String × UInt64)} {members : List (List Piece × Json)}

theorem valuesOf_eq_nil (hstands : List.Forall₂ Stands record members) {name : String}
    (hname : name ∉ record.map Prod.fst) : valuesOf name members = [] := by
  induction hstands with
  | nil => rfl
  | @cons field member record members hstand _ induction =>
      rw [List.map_cons, List.mem_cons, not_or] at hname
      have hspells : ¬ Spells member.1 name.toList := fun hspells =>
        hname.1 (String.toList_inj.mp (hspells.unique hstand.1))
      rw [valuesOf_cons_of_not_spells hspells]
      exact induction hname.2

theorem valuesOf_of_mem (hstands : List.Forall₂ Stands record members)
    (hnames : (record.map Prod.fst).Nodup) {field : String × UInt64} (hfield : field ∈ record) :
    valuesOf field.1 members = [decimal field.2] := by
  induction hstands with
  | nil => cases hfield
  | @cons first member record members hstand hrest induction =>
      rw [List.map_cons, List.nodup_cons] at hnames
      rcases List.mem_cons.mp hfield with rfl | hlater
      · rw [valuesOf_cons_of_spells hstand.1, valuesOf_eq_nil hrest hnames.1, hstand.2]
      · have hspells : ¬ Spells member.1 field.1.toList := by
          intro hspells
          have hsame := String.toList_inj.mp (hspells.unique hstand.1)
          exact hnames.1 (hsame ▸ List.mem_map_of_mem hlater)
        rw [valuesOf_cons_of_not_spells hspells]
        exact induction hnames.2 hlater

theorem Codec.Documented.read_write {codec : Codec} (hcodec : codec.Documented)
    (hnames : (record.map Prod.fst).Nodup) :
    codec.read (record.map Prod.fst) (codec.write record) = some (record.map Prod.snd) := by
  obtain ⟨members, hstands, htext⟩ := hcodec.written record
  rw [hcodec.read_object_eq_some_iff htext, List.forall₂_map_left_iff,
    List.forall₂_map_right_iff]
  constructor
  · intro member hmember
    obtain ⟨field, _, hstand⟩ := exists_of_forall₂ hstands hmember
    exact ⟨_, hstand.1⟩
  · exact List.forall₂_same.mpr fun field hfield => valuesOf_of_mem hstands hnames hfield

end Stands

end Containment.Json
