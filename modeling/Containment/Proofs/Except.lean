/-! Results that may fail, as far as the standard library does not speak of them. -/

namespace Except

variable {ε α β : Type}

theorem map_eq_ok_iff {result : Except ε α} {transform : α → β} {value : β} :
    result.map transform = .ok value ↔ ∃ found, result = .ok found ∧ transform found = value := by
  cases result <;> simp [Except.map]

@[simp] theorem ok_bind (found : α) (next : α → Except ε β) :
    ((.ok found : Except ε α) >>= next) = next found := rfl

theorem mapM_eq_ok {run : α → Except ε β} {value : α → β} {items : List α}
    (hrun : ∀ item ∈ items, run item = .ok (value item)) :
    items.mapM run = .ok (items.map value) := by
  induction items with
  | nil => rfl
  | cons item items induction =>
      rw [List.mapM_cons, hrun item List.mem_cons_self,
        induction fun later hlater => hrun later (List.mem_cons_of_mem item hlater)]
      rfl

theorem bind_eq_ok_iff {result : Except ε α} {next : α → Except ε β} {value : β} :
    (result >>= next) = .ok value ↔ ∃ found, result = .ok found ∧ next found = .ok value := by
  cases result <;> simp [bind, Except.bind]

theorem exists_of_mem_mapM {run : α → Except ε β} {items : List α} {values : List β}
    (hvalues : items.mapM run = .ok values) {value : β} (hvalue : value ∈ values) :
    ∃ item ∈ items, run item = .ok value := by
  induction items generalizing values with
  | nil =>
      cases hvalues
      cases hvalue
  | cons item items induction =>
      rw [List.mapM_cons, bind_eq_ok_iff] at hvalues
      obtain ⟨first, hfirst, hrest⟩ := hvalues
      obtain ⟨rest, hmapped, heq⟩ := bind_eq_ok_iff.mp hrest
      cases heq
      rcases List.mem_cons.mp hvalue with rfl | hlater
      · exact ⟨item, List.mem_cons_self, hfirst⟩
      · obtain ⟨other, hother, hrun⟩ := induction hmapped hlater
        exact ⟨other, List.mem_cons_of_mem item hother, hrun⟩

theorem mapM_map {γ : Type} (run : α → Except ε β) (transform : β → γ) (items : List α) :
    items.mapM (fun item => (run item).map transform) =
      (items.mapM run).map (List.map transform) := by
  induction items with
  | nil => rfl
  | cons item items induction =>
      rw [List.mapM_cons, List.mapM_cons, induction]
      cases run item with
      | error problem => rfl
      | ok value => cases items.mapM run <;> rfl

end Except
