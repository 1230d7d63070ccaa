import Containment.Proofs.Json.Numeral

namespace Containment.Json

namespace Lexing

/-! One character is read at a time. Some give no token yet, some give one. -/

theorem run_of_silent {state next : Lexing} {character : Char}
    (hstep : state.step character = some ([], next)) (rest : List Char) :
    run state (character :: rest) = run next rest := by
  rw [run, hstep]
  cases hrest : run next rest <;> simp [hrest]

theorem run_of_token {state next : Lexing} {character : Char} {token : Token}
    (hstep : state.step character = some ([token], next)) (rest : List Char) :
    run state (character :: rest) = (run next rest).map (token :: ·) := by
  rw [run, hstep]
  cases hrest : run next rest <;> simp [hrest]

theorem run_blank {gap : List Char} (hgap : Blank gap) (rest : List Char) :
    run .between (gap ++ rest) = run .between rest := by
  induction gap with
  | nil => rfl
  | cons character gap induction =>
      have hstep : step .between character = some ([], .between) := by
        have hblank := hgap character List.mem_cons_self
        simp only [blanks, List.mem_cons, List.not_mem_nil, or_false] at hblank
        rcases hblank with rfl | rfl | rfl | rfl <;> rfl
      rw [List.cons_append, run_of_silent hstep]
      exact induction fun later hlater => hgap later (List.mem_cons_of_mem character hlater)

/-! A word or a numeral ends where a character follows that cannot be part of it. -/

/-- What may stand behind a value. -/
def stoppers : List Char :=
  blanks ++ [',', ']', '\x7d']

def Stops (rest : List Char) : Prop :=
  ∀ character, rest.head? = some character → character ∈ stoppers

theorem stops_nil : Stops [] := by
  intro character hcharacter
  cases hcharacter

theorem stops_cons {character : Char} (hstop : character ∈ stoppers) (rest : List Char) :
    Stops (character :: rest) := by
  intro other hother
  cases hother
  exact hstop

theorem Stops.after_blank {gap rest : List Char} (hrest : Stops rest) (hgap : Blank gap) :
    Stops (gap ++ rest) := by
  cases gap with
  | nil => exact hrest
  | cons character gap =>
      intro other hother
      cases hother
      exact List.mem_append_left _ (hgap character List.mem_cons_self)

theorem run_of_pending {pending : Lexing} {token : Token} {rest : List Char}
    (hfinish : pending.finish = some [token])
    (hstep : ∀ character, rest.head? = some character →
      pending.step character = pending.finishAndStart character) :
    run pending rest = (run .between rest).map (token :: ·) := by
  cases rest with
  | nil => rw [run, run, hfinish]; rfl
  | cons character rest =>
      rw [run, run, hstep character rfl, finishAndStart, hfinish, step]
      cases hstart : start character with
      | none => rfl
      | some read => cases hrest : run read.2 rest <;> simp [hrest]

theorem run_collect (state : List Char → Lexing) {text : List Char}
    (hstep : ∀ character ∈ text, ∀ read,
      (state read).step character = some ([], state (character :: read)))
    (read rest : List Char) :
    run (state read) (text ++ rest) = run (state (text.reverse ++ read)) rest := by
  induction text generalizing read with
  | nil => rfl
  | cons character text induction =>
      rw [List.cons_append, run_of_silent (hstep character List.mem_cons_self read),
        induction fun later hlater => hstep later (List.mem_cons_of_mem character hlater),
        List.reverse_cons, List.append_assoc]
      rfl

theorem run_word {first : Char} {letters : List Char} {token : Token}
    (hfirst : between.step first = some ([], .word [first]))
    (hletters : letters.all isLowercase = true)
    (htoken : wordToken? (first :: letters) = some token) {rest : List Char}
    (hrest : Stops rest) :
    run .between (first :: letters ++ rest) = (run .between rest).map (token :: ·) := by
  have hstep : ∀ letter ∈ letters, ∀ read,
      (word read).step letter = some ([], word (letter :: read)) := by
    intro letter hletter read
    rw [step, if_pos (List.all_eq_true.mp hletters letter hletter)]
  rw [List.cons_append, run_of_silent hfirst, run_collect word hstep]
  apply run_of_pending
  · rw [finish, List.reverse_append, List.reverse_reverse]
    exact congrArg _ htoken
  · intro character hcharacter
    have hstop : stoppers.any isLowercase = false := by decide
    rw [step, if_neg (List.any_eq_false.mp hstop character (hrest character hcharacter))]

theorem step_of_isDigit {digit : Char} (hdigit : digit.isDigit = true) :
    between.step digit = some ([], .numeral [digit]) := by
  have hblank : isBlank digit = false := by
    simp only [isBlank, Bool.or_eq_false_iff, beq_eq_false_iff_ne]
    refine ⟨⟨⟨?_, ?_⟩, ?_⟩, ?_⟩ <;> rintro rfl <;> exact absurd hdigit (by decide)
  have hletter : isLowercase digit = false := by
    simp only [Char.isDigit, Bool.and_eq_true, decide_eq_true_eq, ge_iff_le] at hdigit
    rw [isLowercase, Bool.and_eq_false_iff]
    refine Or.inl (decide_eq_false ?_)
    rw [Char.le_def, UInt32.not_le]
    exact UInt32.lt_of_le_of_lt hdigit.2 (by decide)
  rw [step]
  unfold start
  rw [hblank, hletter, hdigit, Bool.or_true]
  rfl

theorem run_numeral {literal : List Char} (hspelled : Numeral.Spelled literal)
    {rest : List Char} (hrest : Stops rest) :
    run .between (literal ++ rest) = (run .between rest).map (.number literal :: ·) := by
  obtain ⟨first, later, rfl, hfirst⟩ := hspelled.exists_cons
  have hstart : between.step first = some ([], numeral [first]) := by
    rcases hfirst with rfl | hdigit
    · rfl
    · exact step_of_isDigit hdigit
  have hstep : ∀ character ∈ later, ∀ read,
      (numeral read).step character = some ([], numeral (character :: read)) := by
    intro character hcharacter read
    rw [step, if_pos (hspelled.all_continue character (List.mem_cons_of_mem first hcharacter))]
  rw [List.cons_append, run_of_silent hstart, run_collect numeral hstep]
  apply run_of_pending
  · rw [finish, List.reverse_append, List.reverse_reverse]
    exact if_pos hspelled.isWellFormed
  · intro character hcharacter
    have hstop : stoppers.any Numeral.continues = false := by decide
    rw [step, if_neg (List.any_eq_false.mp hstop character (hrest character hcharacter))]

/-! A string is read piece by piece. -/

theorem hexDigit?_of_hexDigit {character : Char} {value : Nat} (hdigit : HexDigit character value) :
    hexDigit? character = some value := by
  have hlower : ∀ value, (h : value < 16) →
      hexDigit? ("0123456789abcdef".toList.get ⟨value, h⟩) = some value := by decide
  have hupper : ∀ value, (h : value < 16) →
      hexDigit? ("0123456789ABCDEF".toList.get ⟨value, h⟩) = some value := by decide
  rcases hdigit with hdigit | hdigit
  · obtain ⟨hlt, rfl⟩ := List.getElem?_eq_some_iff.mp hdigit
    exact hlower value hlt
  · obtain ⟨hlt, rfl⟩ := List.getElem?_eq_some_iff.mp hdigit
    exact hupper value hlt

theorem step_codeUnit {character : Char} {value : Nat} (hdigit : HexDigit character value)
    (read : List Piece) (digits number : Nat) :
    step (.codeUnit read digits number) character =
      some (if digits = 3 then ([], .string (.unit (16 * number + value) :: read))
        else ([], .codeUnit read (digits + 1) (16 * number + value))) := by
  rw [step, hexDigit?_of_hexDigit hdigit]
  rfl

theorem run_piece {piece : Piece} {text : List Char} (hpiece : PieceText piece text)
    (read : List Piece) (rest : List Char) :
    run (.string read) (text ++ rest) = run (.string (piece :: read)) rest := by
  cases hpiece with
  | @plain character hcontrol hquote hbackslash =>
      have hplain : isControl character = false := decide_eq_false (Nat.not_lt.mpr hcontrol)
      refine run_of_silent ?_ rest
      rw [step, if_neg hquote, if_neg hbackslash, hplain]
      rfl
  | @escaped letter character hescape =>
      have hletter : ∀ escape ∈ escapes,
          (Lexing.escape read).step escape.1 = some ([], .string (.plain escape.2 :: read)) := by
        simp only [escapes, List.forall_mem_cons]
        exact ⟨rfl, rfl, rfl, rfl, rfl, rfl, rfl, rfl, fun _ hnone => nomatch hnone⟩
      exact (run_of_silent rfl (letter :: rest)).trans
        (run_of_silent (hletter (letter, character) hescape) rest)
  | @unit first second third fourth high upper lower low hfirst hsecond hthird hfourth =>
      calc run (.string read) ('\\' :: 'u' :: first :: second :: third :: fourth :: rest)
        _ = run (.codeUnit read 0 0) (first :: second :: third :: fourth :: rest) :=
          (run_of_silent rfl _).trans (run_of_silent rfl _)
        _ = run (.codeUnit read 1 _) (second :: third :: fourth :: rest) :=
          run_of_silent (step_codeUnit hfirst read 0 0) _
        _ = run (.codeUnit read 2 _) (third :: fourth :: rest) :=
          run_of_silent (step_codeUnit hsecond read 1 _) _
        _ = run (.codeUnit read 3 _) (fourth :: rest) :=
          run_of_silent (step_codeUnit hthird read 2 _) _
        _ = run (.string (.unit _ :: read)) rest :=
          run_of_silent (step_codeUnit hfourth read 3 _) _
        _ = _ := by rw [Nat.mul_zero, Nat.zero_add]

theorem run_pieces {pieces : List Piece} {body : List Char} (hpieces : PiecesText pieces body)
    (read : List Piece) (rest : List Char) :
    run (.string read) (body ++ '"' :: rest) =
      (run .between rest).map (.string (read.reverse ++ pieces) :: ·) := by
  induction hpieces generalizing read with
  | nil => rw [List.append_nil]; exact run_of_token rfl rest
  | @cons piece pieces text later hpiece _ induction =>
      rw [List.append_assoc, run_piece hpiece, induction, List.reverse_cons, List.append_assoc]
      rfl

theorem run_string {pieces : List Piece} {text : List Char} (hstring : StringText pieces text)
    (rest : List Char) :
    run .between (text ++ rest) = (run .between rest).map (.string pieces :: ·) := by
  obtain ⟨body, hpieces, rfl⟩ := hstring
  rw [List.cons_append, List.append_assoc, run_of_silent rfl]
  exact run_pieces hpieces [] rest

end Lexing

end Containment.Json
