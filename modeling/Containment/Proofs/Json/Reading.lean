import Containment.Proofs.Json.Assembly
import Containment.Proofs.Json.Lexing

namespace Containment.Json

/-! Every text of a value is read as that value. The tokens of a text are those of the value
that it spells; the recursion is that of the grammar. -/

namespace Lexing

theorem run_null {rest : List Char} (hrest : Stops rest) :
    run .between ("null".toList ++ rest) = (run .between rest).map (.null :: ·) :=
  run_word rfl (by decide) rfl hrest

theorem run_true {rest : List Char} (hrest : Stops rest) :
    run .between ("true".toList ++ rest) = (run .between rest).map (.bool true :: ·) :=
  run_word rfl (by decide) rfl hrest

theorem run_false {rest : List Char} (hrest : Stops rest) :
    run .between ("false".toList ++ rest) = (run .between rest).map (.bool false :: ·) :=
  run_word rfl (by decide) rfl hrest

mutual

theorem run_text {value : Json} {text : List Char} (htext : Text value text)
    {rest : List Char} (hrest : Stops rest) :
    run .between (text ++ rest) = (run .between rest).map (value.tokens ++ ·) :=
  match htext with
  | .null => run_null hrest
  | .truth => run_true hrest
  | .falsehood => run_false hrest
  | .number hspelled => run_numeral hspelled hrest
  | .string hstring => run_string hstring rest
  | .array hitems => by
      rw [List.cons_append, List.append_assoc, run_of_token rfl, List.singleton_append,
        run_itemsText hitems (stops_cons (by decide) rest), run_of_token rfl]
      simp only [Option.map_map, tokens, List.append_assoc, List.cons_append, List.nil_append]
      rfl
  | .object hmembers => by
      rw [List.cons_append, List.append_assoc, run_of_token rfl, List.singleton_append,
        run_membersText hmembers (stops_cons (by decide) rest), run_of_token rfl]
      simp only [Option.map_map, tokens, List.append_assoc, List.cons_append, List.nil_append]
      rfl

theorem run_spaced {value : Json} {text : List Char} (hspaced : Spaced value text)
    {rest : List Char} (hrest : Stops rest) :
    run .between (text ++ rest) = (run .between rest).map (value.tokens ++ ·) :=
  match hspaced with
  | .around hbefore htext hafter => by
      rw [List.append_assoc, run_blank hbefore, List.append_assoc,
        run_text htext (hrest.after_blank hafter), run_blank hafter]

theorem run_itemsText {items : List Json} {body : List Char} (hitems : ItemsText items body)
    {rest : List Char} (hrest : Stops rest) :
    run .between (body ++ rest) =
      (run .between rest).map (joined (itemTokens items) ++ ·) :=
  match hitems with
  | .none hgap => by
      rw [run_blank hgap]
      exact Option.map_id'.symm
  | .last hitem => run_spaced hitem hrest
  | .more hitem hlater => by
      rw [List.append_assoc, List.cons_append, run_spaced hitem (stops_cons (by decide) _),
        run_of_token rfl, run_itemsText hlater hrest]
      simp only [Option.map_map, itemTokens, joined_cons_cons, List.append_assoc]
      rfl

theorem run_memberText {member : List Piece × Json} {text : List Char}
    (hmember : MemberText member text) {rest : List Char} (hrest : Stops rest) :
    run .between (text ++ rest) =
      (run .between rest).map ((.string member.1 :: .colon :: member.2.tokens) ++ ·) :=
  match hmember with
  | .named hbefore hname hafter hvalue => by
      rw [List.append_assoc, run_blank hbefore, List.append_assoc, run_string hname,
        List.append_assoc, run_blank hafter, List.cons_append, run_of_token rfl,
        run_spaced hvalue hrest]
      simp only [Option.map_map]
      rfl

theorem run_membersText {members : List (List Piece × Json)} {body : List Char}
    (hmembers : MembersText members body) {rest : List Char} (hrest : Stops rest) :
    run .between (body ++ rest) =
      (run .between rest).map (joined (memberTokens members) ++ ·) :=
  match hmembers with
  | .none hgap => by
      rw [run_blank hgap]
      exact Option.map_id'.symm
  | .last hmember => run_memberText hmember hrest
  | .more hmember hlater => by
      rw [List.append_assoc, List.cons_append,
        run_memberText hmember (stops_cons (by decide) _), run_of_token rfl,
        run_membersText hlater hrest]
      simp only [Option.map_map, memberTokens, joined_cons_cons, List.append_assoc]
      rfl

end

end Lexing

theorem Token.ofText?_of_spaced {value : Json} {text : List Char} (hspaced : Spaced value text) :
    Token.ofText? text = some value.tokens := by
  have hrun := Lexing.run_spaced hspaced Lexing.stops_nil
  rw [List.append_nil] at hrun
  rw [Token.ofText?, hrun, Lexing.run, Lexing.finish, Option.map_some, List.append_nil]

theorem ofText?_of_spaced {value : Json} {text : String} (hspaced : Spaced value text.toList) :
    ofText? text = some value := by
  rw [ofText?, Token.ofText?_of_spaced hspaced]
  exact ofTokens?_tokens value

end Containment.Json
