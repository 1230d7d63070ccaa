import Containment.Proofs.Config
import Containment.Proofs.Json.Plain

namespace Containment.Config

open Json (Codec Piece Text Spaced MemberText valuesOf decimal namePieces)

/-! What is read from the texts that JSON's grammar knows. -/

structure ReadsTexts (codec : Codec) : Prop where
  /-- Also for a configuration that validation refuses. -/
  written : ∀ config : Config, read codec (config.write codec) = some config
  object : ∀ (config : Config) (members : List (List Piece × Json)) (text : String),
    Spaced (.object members) text.toList →
      (read codec text = some config ↔ Carries config members)
  array : ∀ (config : Config) (items : List Json) (text : String),
    Spaced (.array items) text.toList → (read codec text = some config ↔
      items = [decimal config.maxSetSize, decimal config.initialNodeCapacity])
  refused : ∀ (members : List (List Piece × Json)) (text : String),
    Spaced (.object members) text.toList → Spoiled members → read codec text = none

/-- A configuration is read from every text that carries it, whatever the codec, as long as
that does in each step as it is documented. -/
theorem read_readsTexts (codec : Codec) (hcodec : codec.Documented) : ReadsTexts codec where
  written := read_write hcodec
  object _ _ _ htext := read_object_iff hcodec htext
  array _ _ _ htext := read_array_iff hcodec htext
  refused members text htext hspoiled := by
    rw [Option.eq_none_iff_forall_ne_some]
    intro config hread
    exact ((read_object_iff hcodec htext).mp hread).not_spoiled hspoiled

/-- The capacity stands in front, a member with a nested value between the two, and the
name of the set size begins with an escape. -/
def crowdedMembers : List (List Piece × Json) :=
  [(namePieces initialNodeCapacityName, decimal 7),
    (namePieces "note", .array [.object [], .number "-1.5e3".toList, .null]),
    (.unit 0x6d :: namePieces "ax_set_size", decimal unboundedSetSize)]

def crowdedText : String :=
  "\x7b" ++ " \"initial_node_capacity\":7" ++ "," ++ "\"note\":[\x7b\x7d,-1.5e3,null]" ++ ","
    ++ "\"\\u006dax_set_size\" : 18446744073709551615" ++ "\x7d" ++ "\n"

theorem spaced_crowdedText : Spaced (.object crowdedMembers) crowdedText.toList := by
  have hspace : Json.Blank [' '] := List.forall_mem_singleton.mpr (by decide)
  have hnewline : Json.Blank ['\n'] := List.forall_mem_singleton.mpr (by decide)
  have hcapacity : MemberText (namePieces initialNodeCapacityName, decimal 7)
      " \"initial_node_capacity\":7".toList :=
    .named hspace (Json.stringText_namePieces _) Json.blank_nil (Json.text_decimal 7).spaced
  have hdigits : ∀ digit ∈ "135".toList, Json.Numeral.Digits [digit] := by
    intro digit hdigit
    refine ⟨List.cons_ne_nil digit [], List.forall_mem_singleton.mpr ?_⟩
    have hall : "135".toList.all Char.isDigit = true := rfl
    exact List.all_eq_true.mp hall digit hdigit
  have hnumber : Json.Numeral.Spelled "-1.5e3".toList :=
    @Json.Numeral.Spelled.parts ['-'] ['1'] ['.', '5'] ['e', '3'] (by decide)
      ⟨hdigits '1' (by decide), by decide⟩ (.present (hdigits '5' (by decide)))
      (@Json.Numeral.Exponent.present 'e' [] ['3'] (by decide) (by decide)
        (hdigits '3' (by decide)))
  have hnote : MemberText (namePieces "note", .array [.object [], .number "-1.5e3".toList, .null])
      "\"note\":[\x7b\x7d,-1.5e3,null]".toList :=
    .named Json.blank_nil (Json.stringText_namePieces "note") Json.blank_nil
      (Text.array (.more (Text.object (.none Json.blank_nil)).spaced
        (.more (Text.number hnumber).spaced (.last Text.null.spaced)))).spaced
  have hletter : Json.PieceText (.unit 0x6d) ['\\', 'u', '0', '0', '6', 'd'] :=
    @Json.PieceText.unit '0' '0' '6' 'd' 0 0 6 13 (Or.inl rfl) (Or.inl rfl) (Or.inl rfl)
      (Or.inl rfl)
  obtain ⟨later, hlater, hspelled⟩ := Json.stringText_namePieces "ax_set_size"
  obtain rfl : later = "ax_set_size".toList :=
    (List.append_cancel_right (List.cons.inj hspelled).2).symm
  have hmax : MemberText (.unit 0x6d :: namePieces "ax_set_size", decimal unboundedSetSize)
      "\"\\u006dax_set_size\" : 18446744073709551615".toList :=
    .named Json.blank_nil ⟨_, .cons hletter hlater, rfl⟩ hspace
      (.around hspace (Json.text_decimal unboundedSetSize) Json.blank_nil)
  have htext := Spaced.around Json.blank_nil
    (.object (.more hcapacity (.more hnote (.last hmax)))) hnewline
  simp only [List.nil_append, List.cons_append, List.append_assoc] at htext
  simp only [crowdedText, String.toList_append, List.append_assoc]
  exact htext

theorem read_readsTexts_crowdedText :
    Codec.plain.Documented ∧ Spaced (.object crowdedMembers) crowdedText.toList ∧
      Carries { maxSetSize := unboundedSetSize, initialNodeCapacity := 7 } crowdedMembers ∧
      ReadsTexts Codec.plain ∧ (∀ config : Config, ofText? config.toText = some config) ∧
      ofText? crowdedText =
        some { maxSetSize := unboundedSetSize, initialNodeCapacity := 7 } := by
  have hcarries : Carries { maxSetSize := unboundedSetSize, initialNodeCapacity := 7 }
      crowdedMembers := ⟨by decide, rfl, rfl⟩
  have hreads := read_readsTexts Codec.plain Json.Codec.plain_documented
  exact ⟨Json.Codec.plain_documented, spaced_crowdedText, hcarries, hreads, hreads.written,
    (hreads.object _ crowdedMembers crowdedText spaced_crowdedText).mpr hcarries⟩

/-! One unknown member is not passed over: one whose name is half of a surrogate pair. -/

def unpairedMembers : List (List Piece × Json) :=
  [(namePieces maxSetSizeName, decimal 7), ([.unit 0xD800], decimal 0),
    (namePieces initialNodeCapacityName, decimal 9)]

def unpairedText : String :=
  "\x7b" ++ "\"max_set_size\":7" ++ "," ++ "\"\\ud800\":0" ++ ","
    ++ "\"initial_node_capacity\":9" ++ "\x7d"

theorem spaced_unpairedText : Spaced (.object unpairedMembers) unpairedText.toList := by
  have hunit : Json.PieceText (.unit 0xD800) ['\\', 'u', 'd', '8', '0', '0'] :=
    @Json.PieceText.unit 'd' '8' '0' '0' 13 8 0 0 (Or.inl rfl) (Or.inl rfl) (Or.inl rfl)
      (Or.inl rfl)
  have hunpaired : MemberText ([.unit 0xD800], decimal 0) "\"\\ud800\":0".toList :=
    .named Json.blank_nil ⟨_, .cons hunit .nil, rfl⟩ Json.blank_nil (Json.text_decimal 0).spaced
  have htext := (Text.object (.more (Json.memberText_namePieces maxSetSizeName 7)
    (.more hunpaired (.last (Json.memberText_namePieces initialNodeCapacityName 9))))).spaced
  exact htext

theorem read_unpairedText :
    Spaced (.object unpairedMembers) unpairedText.toList ∧
      valuesOf maxSetSizeName unpairedMembers = [decimal 7] ∧
      valuesOf initialNodeCapacityName unpairedMembers = [decimal 9] ∧
      ofText? unpairedText = none ∧
      ∀ codec : Codec, codec.Documented → read codec unpairedText = none := by
  have hnone : ∀ codec : Codec, codec.Documented → read codec unpairedText = none := by
    intro codec hcodec
    rw [Option.eq_none_iff_forall_ne_some]
    intro config hread
    have hcarries := (read_object_iff hcodec spaced_unpairedText).mp hread
    have hnameless : ¬ Json.Named [.unit 0xD800] := by decide
    exact hnameless (hcarries.named ([.unit 0xD800], decimal 0) (by simp [unpairedMembers]))
  exact ⟨spaced_unpairedText, rfl, rfl, hnone _ Json.Codec.plain_documented, hnone⟩

end Containment.Config
