import Mathlib.Data.List.Forall2

namespace Containment

/-! Lists whose entries correspond, one to one and in their order. -/

variable {ι κ : Type} {related other : ι → κ → Prop} {lefts : List ι} {rights : List κ}

/-- In lists that correspond every entry has one that it corresponds to. -/
theorem exists_of_forall₂ (hpairs : List.Forall₂ related lefts rights) {right : κ}
    (hright : right ∈ rights) : ∃ left ∈ lefts, related left right := by
  induction hpairs with
  | nil => cases hright
  | cons hpair _ induction =>
      rcases List.mem_cons.mp hright with rfl | hrest
      · exact ⟨_, List.mem_cons_self, hpair⟩
      · obtain ⟨left, hleft, hrelated⟩ := induction hrest
        exact ⟨left, List.mem_cons_of_mem _ hleft, hrelated⟩

theorem forall₂_iff_of_mem
    (hiff : ∀ left ∈ lefts, ∀ right, related left right ↔ other left right) :
    List.Forall₂ related lefts rights ↔ List.Forall₂ other lefts rights := by
  simp only [List.forall₂_iff_zip]
  refine and_congr_right fun _ => forall_congr' fun left => forall_congr' fun right => ?_
  exact forall_congr' fun hmem => hiff left (List.of_mem_zip hmem).1 right

/-- What a list is turned into entry by entry corresponds to it. -/
theorem mapM_eq_some_iff {run : ι → Option κ} :
    lefts.mapM run = some rights ↔
      List.Forall₂ (fun left right => run left = some right) lefts rights := by
  induction lefts generalizing rights with
  | nil =>
      rw [List.mapM_nil, List.forall₂_nil_left_iff]
      exact ⟨fun heq => (Option.some.inj heq).symm, fun heq => congrArg some heq.symm⟩
  | cons left lefts induction =>
      rw [List.mapM_cons, List.forall₂_cons_left_iff, Option.bind_eq_bind,
        Option.bind_eq_some_iff]
      constructor
      · rintro ⟨right, hright, hrest⟩
        obtain ⟨later, hlater, heq⟩ := Option.bind_eq_some_iff.mp hrest
        cases heq
        exact ⟨right, later, hright, induction.mp hlater, rfl⟩
      · rintro ⟨right, later, hright, hlater, rfl⟩
        refine ⟨right, hright, ?_⟩
        rw [induction.mpr hlater]
        rfl

end Containment
