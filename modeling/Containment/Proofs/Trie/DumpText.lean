import Containment.Proofs.Trie.Generations

namespace Containment.Trie

variable {α : Type} {spell : α → String}

/-! The text of a dump, told by its pieces and what separates them. -/

def linesText (spell : α → String) (lines : List (List (List (Mark α)))) : String :=
  "\n".intercalate (lines.map (lineText spell))

theorem Shaped.dump_eq_linesText {trie : Trie α} (hshaped : trie.Shaped) (spell : α → String) :
    trie.dump spell = .ok (linesText spell (trie.rows.map fun row => row.map trie.entryAt)) := by
  rw [hshaped.dumpedOnce.spelled, linesText, List.map_map]
  rfl

/-- The spellings in an entry, before the bar that closes it. -/
def spellings (spell : α → String) : List (Mark α) → List String
  | [] => ["-"]
  | entry => entry.map (Mark.text spell)

def bodyText (spell : α → String) (entry : List (Mark α)) : String :=
  ",".intercalate (spellings spell entry)

theorem entryText_eq (spell : α → String) (entry : List (Mark α)) :
    entryText spell entry = bodyText spell entry ++ "|" := by
  cases entry with
  | nil => simp [entryText, bodyText, spellings]
  | cons mark marks => rfl

theorem spellings_of_ne_nil {entry : List (Mark α)} (hne : entry ≠ []) :
    spellings spell entry = entry.map (Mark.text spell) := by
  cases entry with
  | nil => contradiction
  | cons mark marks => rfl

theorem spellings_ne_nil (spell : α → String) (entry : List (Mark α)) :
    spellings spell entry ≠ [] := by
  cases entry with
  | nil => simp [spellings]
  | cons mark marks => simp [spellings]

/-- A separator adds only itself to what it separates. -/
theorem count_intercalate {sign : Char} {separator : String} (hsign : sign ∉ separator.toList)
    (parts : List String) :
    (separator.intercalate parts).toList.count sign =
      (parts.flatMap String.toList).count sign := by
  induction parts with
  | nil => simp
  | cons part parts induction =>
      cases parts with
      | nil => simp
      | cons next parts =>
          simp only [String.intercalate_cons_cons, String.toList_append, List.count_append,
            List.count_eq_zero_of_not_mem hsign, induction, Nat.add_zero, List.flatMap_cons]

theorem mem_intercalate_iff {sign : Char} {separator : String}
    (hsign : sign ∉ separator.toList) (parts : List String) :
    sign ∈ (separator.intercalate parts).toList ↔ ∃ part ∈ parts, sign ∈ part.toList := by
  rw [← List.count_pos_iff, count_intercalate hsign, List.count_pos_iff, List.mem_flatMap]

/-! Where no element is spelled with a star, the stars of a dump are its marks of stored
sequences. -/

section Stars

variable (hspell : ∀ element, '*' ∉ (spell element).toList)
include hspell

theorem count_text (mark : Mark α) :
    (mark.text spell).toList.count '*' = if mark.terminal then 1 else 0 := by
  rw [Mark.text, String.toList_append, List.count_append,
    List.count_eq_zero_of_not_mem (hspell mark.key)]
  cases mark.terminal <;> decide

private theorem count_texts (marks : List (Mark α)) :
    (marks.flatMap fun mark => (mark.text spell).toList).count '*' =
      marks.countP Mark.terminal := by
  induction marks with
  | nil => rfl
  | cons mark marks induction =>
      rw [List.flatMap_cons, List.count_append, induction, count_text hspell, List.countP_cons,
        Nat.add_comm]

theorem count_entryText (entry : List (Mark α)) :
    (entryText spell entry).toList.count '*' = entry.countP Mark.terminal := by
  rw [entryText_eq, String.toList_append, List.count_append, bodyText,
    count_intercalate (by decide)]
  cases entry with
  | nil => simp [spellings]
  | cons mark marks =>
      rw [spellings_of_ne_nil (List.cons_ne_nil mark marks), List.flatMap_map]
      exact count_texts hspell (mark :: marks)

theorem count_lineText (line : List (List (Mark α))) :
    (lineText spell line).toList.count '*' = line.flatten.countP Mark.terminal := by
  rw [lineText, String.toList_join, List.flatMap_map, List.count_flatMap, List.countP_flatten]
  exact congrArg List.sum (List.map_congr_left fun entry _ => count_entryText hspell entry)

theorem count_linesText (lines : List (List (List (Mark α)))) :
    (linesText spell lines).toList.count '*' = lines.flatten.flatten.countP Mark.terminal := by
  rw [linesText, count_intercalate (by decide), List.flatMap_map, List.count_flatMap,
    List.flatten_flatten, List.countP_flatten, List.map_map]
  exact congrArg List.sum (List.map_congr_left fun line _ => count_lineText hspell line)

end Stars

/-- What is written between the elements of a dump. -/
def signs : List Char := [',', '|', '*', '\n']

theorem minus_unsigned : ∀ sign ∈ signs, sign ∉ "-".toList := by
  simp [signs]

/-- Spellings that can be told apart in a dump: none has a sign of the dump in it, and none
is the dash of a node without children. -/
structure Legible (spell : α → String) : Prop where
  injective : Function.Injective spell
  unsigned : ∀ element, ∀ sign ∈ signs, sign ∉ (spell element).toList
  ne_dash : ∀ element, spell element ≠ "-"

/-! A dump that is written legibly can be read back. -/

/-- What one character separates is told by the whole. -/
theorem eq_of_intercalate_eq (sign : Char) {lefts rights : List String}
    (hlefts : ∀ part ∈ lefts, sign ∉ part.toList)
    (hrights : ∀ part ∈ rights, sign ∉ part.toList) (hleft : lefts ≠ []) (hright : rights ≠ [])
    (heq : (String.singleton sign).intercalate lefts =
      (String.singleton sign).intercalate rights) : lefts = rights := by
  have hparts := String.toList_split_intercalate hlefts
  rw [heq, String.toList_split_intercalate hrights, if_neg hleft, if_neg hright] at hparts
  exact hparts.symm

theorem lineText_eq (spell : α → String) (line : List (List (Mark α))) :
    lineText spell line = "|".intercalate (line.map (bodyText spell) ++ [""]) := by
  induction line with
  | nil => simp [lineText]
  | cons entry line induction =>
      rw [lineText] at induction ⊢
      rw [List.map_cons, String.join_cons, induction, entryText_eq, List.map_cons,
        List.cons_append, String.intercalate_cons_of_ne_nil (by simp)]

namespace Legible

variable (hlegible : Legible spell)
include hlegible

section Signs

variable {sign : Char} (hsign : sign ∈ signs) (hstar : sign ≠ '*')
include hsign hstar

theorem not_mem_text (mark : Mark α) : sign ∉ (mark.text spell).toList := by
  have hspell := hlegible.unsigned mark.key sign hsign
  rw [Mark.text, String.toList_append, List.mem_append]
  cases mark.terminal <;> simp [hspell, hstar]

theorem not_mem_spelling {entry : List (Mark α)} {part : String}
    (hpart : part ∈ spellings spell entry) : sign ∉ part.toList := by
  cases entry with
  | nil =>
      rw [List.mem_singleton.mp hpart]
      exact minus_unsigned sign hsign
  | cons mark marks =>
      obtain ⟨mark, _, rfl⟩ := List.mem_map.mp hpart
      exact hlegible.not_mem_text hsign hstar mark

theorem not_mem_bodyText (hcomma : sign ≠ ',') (entry : List (Mark α)) :
    sign ∉ (bodyText spell entry).toList := by
  rw [bodyText, mem_intercalate_iff (by simpa using hcomma)]
  intro hmem
  obtain ⟨part, hpart, hin⟩ := hmem
  exact hlegible.not_mem_spelling hsign hstar hpart hin

theorem not_mem_of_mem_bodies (hcomma : sign ≠ ',') {line : List (List (Mark α))} {part : String}
    (hpart : part ∈ line.map (bodyText spell) ++ [""]) : sign ∉ part.toList := by
  rcases List.mem_append.mp hpart with hbody | hempty
  · obtain ⟨entry, _, rfl⟩ := List.mem_map.mp hbody
    exact hlegible.not_mem_bodyText hsign hstar hcomma entry
  · simp [List.mem_singleton.mp hempty]

theorem not_mem_lineText (hcomma : sign ≠ ',') (hbar : sign ≠ '|')
    (line : List (List (Mark α))) : sign ∉ (lineText spell line).toList := by
  rw [lineText_eq, mem_intercalate_iff (by simpa using hbar)]
  intro hmem
  obtain ⟨part, hpart, hin⟩ := hmem
  exact hlegible.not_mem_of_mem_bodies hsign hstar hcomma hpart hin

end Signs

theorem star_mem_text_iff (mark : Mark α) :
    '*' ∈ (mark.text spell).toList ↔ mark.terminal = true := by
  have hspell := hlegible.unsigned mark.key '*' (by decide)
  rw [Mark.text, String.toList_append, List.mem_append, or_iff_right hspell]
  cases mark.terminal <;> decide

theorem text_injective : Function.Injective (Mark.text spell) := by
  intro left right heq
  have hterminal : left.terminal = right.terminal := by
    rw [Bool.eq_iff_iff, ← hlegible.star_mem_text_iff, ← hlegible.star_mem_text_iff, heq]
  have hkey : left.key = right.key := by
    rw [Mark.text, Mark.text, hterminal, String.append_left_inj] at heq
    exact hlegible.injective heq
  cases left
  cases right
  cases hterminal
  cases hkey
  rfl

/-- The dash stands for no mark, starred or not. -/
theorem text_ne_dash (mark : Mark α) : mark.text spell ≠ "-" := by
  intro heq
  have hstar := hlegible.star_mem_text_iff mark
  cases hterminal : mark.terminal with
  | true =>
      rw [hterminal, heq] at hstar
      exact absurd (hstar.mpr rfl) (by decide)
  | false =>
      rw [Mark.text, hterminal] at heq
      exact hlegible.ne_dash mark.key (by simpa using heq)

theorem spellings_injective : Function.Injective (spellings spell) := by
  intro left right heq
  cases left with
  | nil =>
      cases right with
      | nil => rfl
      | cons mark marks => exact absurd (List.cons.inj heq).1.symm (hlegible.text_ne_dash mark)
  | cons mark marks =>
      cases right with
      | nil => exact absurd (List.cons.inj heq).1 (hlegible.text_ne_dash mark)
      | cons other others => exact hlegible.text_injective.list_map heq

theorem bodyText_injective : Function.Injective (bodyText spell) := by
  intro left right heq
  have hparts (entry : List (Mark α)) (part : String) (hpart : part ∈ spellings spell entry) :
      ',' ∉ part.toList := hlegible.not_mem_spelling (by decide) (by decide) hpart
  exact hlegible.spellings_injective (eq_of_intercalate_eq ',' (hparts left) (hparts right)
    (spellings_ne_nil spell left) (spellings_ne_nil spell right) heq)

theorem lineText_injective : Function.Injective (lineText spell) := by
  intro left right heq
  have hparts (line : List (List (Mark α))) (part : String)
      (hpart : part ∈ line.map (bodyText spell) ++ [""]) : '|' ∉ part.toList :=
    hlegible.not_mem_of_mem_bodies (by decide) (by decide) (by decide) hpart
  rw [lineText_eq, lineText_eq] at heq
  have hbodies := eq_of_intercalate_eq '|' (hparts left) (hparts right) (by simp) (by simp) heq
  exact hlegible.bodyText_injective.list_map (List.append_left_injective _ hbodies)

/-- Dumps that read the same list the same marks, generation by generation. -/
theorem linesText_injective {lefts rights : List (List (List (Mark α)))} (hleft : lefts ≠ [])
    (hright : rights ≠ []) (heq : linesText spell lefts = linesText spell rights) :
    lefts = rights := by
  have hparts (lines : List (List (List (Mark α)))) (part : String)
      (hpart : part ∈ lines.map (lineText spell)) : '\n' ∉ part.toList := by
    obtain ⟨line, _, rfl⟩ := List.mem_map.mp hpart
    exact hlegible.not_mem_lineText (by decide) (by decide) (by decide) (by decide) line
  have hlines := eq_of_intercalate_eq '\n' (hparts lefts) (hparts rights) (by simpa) (by simpa)
    heq
  exact hlegible.lineText_injective.list_map hlines

end Legible

end Containment.Trie
