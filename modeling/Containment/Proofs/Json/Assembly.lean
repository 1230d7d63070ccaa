import Containment.Json.Plain

namespace Containment.Json

/-! The tokens of a value are put together to that value, whatever is waiting for it. The
recursion is that of the tokens: a value, its items, its members. -/

theorem foldlM_of_step {state next : Assembly} {token : Token}
    (hstep : state.step token = some next) (later : List Token) :
    (token :: later).foldlM Assembly.step state = later.foldlM Assembly.step next := by
  rw [List.foldlM_cons, hstep]
  rfl

@[simp] theorem joined_cons_cons (part next : List Token) (parts : List (List Token)) :
    joined (part :: next :: parts) = part ++ .comma :: joined (next :: parts) := rfl

theorem exists_joined_cons (part : List Token) (parts : List (List Token)) :
    ∃ more, joined (part :: parts) = part ++ more := by
  cases parts with
  | nil => exact ⟨[], (List.append_nil part).symm⟩
  | cons next parts => exact ⟨_, rfl⟩

/-- No value begins with a closing bracket, so the first item is a value like every other. -/
theorem foldlM_firstItem (item : Json) (frames : List Frame) (later : List Token) :
    (item.tokens ++ later).foldlM Assembly.step (.firstItem frames) =
      (item.tokens ++ later).foldlM Assembly.step (.value (.items [] :: frames)) := by
  cases item with
  | bool truth => cases truth <;> rfl
  | _ => rfl

mutual

theorem foldlM_tokens (frames : List Frame) (later : List Token) : (value : Json) →
    (value.tokens ++ later).foldlM Assembly.step (.value frames) =
      later.foldlM Assembly.step (.complete value frames)
  | .null => rfl
  | .bool _ => rfl
  | .number _ => rfl
  | .string _ => rfl
  | .array [] => rfl
  | .array (item :: items) => by
      have hitems := foldlM_items frames [] later (item :: items) (List.cons_ne_nil item items)
      obtain ⟨more, hmore⟩ := exists_joined_cons item.tokens (itemTokens items)
      rw [itemTokens, hmore, List.append_assoc] at hitems
      rw [tokens, List.cons_append, foldlM_of_step rfl, itemTokens, hmore, List.append_assoc,
        List.append_assoc, foldlM_firstItem]
      exact hitems
  | .object [] => rfl
  | .object ((name, value) :: members) => by
      have hmembers := foldlM_members frames [] later ((name, value) :: members)
        (List.cons_ne_nil _ members)
      obtain ⟨more, hmore⟩ :=
        exists_joined_cons (.string name :: .colon :: value.tokens) (memberTokens members)
      rw [memberTokens, hmore] at hmembers
      rw [tokens, List.cons_append, foldlM_of_step rfl, memberTokens, hmore, List.append_assoc]
      exact hmembers

theorem foldlM_items (frames : List Frame) (done : List Json) (later : List Token) :
    (items : List Json) → items ≠ [] →
    (joined (itemTokens items) ++ .closeArray :: later).foldlM Assembly.step
        (.value (.items done :: frames)) =
      later.foldlM Assembly.step (.complete (.array (done.reverse ++ items)) frames)
  | [], hne => absurd rfl hne
  | [item], _ => by
      rw [itemTokens, itemTokens, joined, foldlM_tokens, foldlM_of_step rfl, List.reverse_cons]
  | item :: next :: items, _ => by
      have hitems := foldlM_items frames (item :: done) later (next :: items)
        (List.cons_ne_nil next items)
      rw [itemTokens] at hitems
      rw [itemTokens, itemTokens, joined_cons_cons, List.append_assoc, foldlM_tokens,
        List.cons_append, foldlM_of_step rfl, hitems, List.reverse_cons, List.append_assoc]
      rfl

theorem foldlM_members (frames : List Frame) (done : List (List Piece × Json))
    (later : List Token) : (members : List (List Piece × Json)) → members ≠ [] →
    (joined (memberTokens members) ++ .closeObject :: later).foldlM Assembly.step
        (.laterName done frames) =
      later.foldlM Assembly.step (.complete (.object (done.reverse ++ members)) frames)
  | [], hne => absurd rfl hne
  | [(name, value)], _ => by
      rw [memberTokens, memberTokens, joined, List.cons_append, foldlM_of_step rfl,
        List.cons_append, foldlM_of_step rfl, foldlM_tokens, foldlM_of_step rfl,
        List.reverse_cons]
  | (name, value) :: (next, second) :: members, _ => by
      have hmembers := foldlM_members frames ((name, value) :: done) later
        ((next, second) :: members) (List.cons_ne_nil _ members)
      rw [memberTokens] at hmembers
      rw [memberTokens, memberTokens, joined_cons_cons, List.append_assoc, List.cons_append,
        foldlM_of_step rfl, List.cons_append, foldlM_of_step rfl, foldlM_tokens,
        List.cons_append, foldlM_of_step rfl, hmembers, List.reverse_cons, List.append_assoc]
      rfl

end

theorem ofTokens?_tokens (value : Json) : ofTokens? value.tokens = some value := by
  have hfold := foldlM_tokens [] [] value
  rw [List.append_nil] at hfold
  rw [ofTokens?, hfold]
  rfl

end Containment.Json
