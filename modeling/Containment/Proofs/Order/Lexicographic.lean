import Containment.Proofs.Order.Ascent
import Mathlib.Data.List.Perm.Basic

namespace Containment.Order

variable {α : Type} {order : Order α}

/-! Under a lawful order an ascending list is told by its members. -/

section

variable [Std.TransCmp order] {lefts rights : List α}

theorem Ascends.nodup (hascends : order.Ascends lefts) : lefts.Nodup := by
  refine hascends.imp ?_
  rintro element _ hlt rfl
  have hself : order element element = .eq := Std.ReflCmp.compare_self
  rw [hself] at hlt
  contradiction

theorem Ascends.eq_of_mem_iff (hlefts : order.Ascends lefts) (hrights : order.Ascends rights)
    (hmem : ∀ element, element ∈ lefts ↔ element ∈ rights) : lefts = rights := by
  have hperm : lefts.Perm rights :=
    (List.perm_ext_iff_of_nodup hlefts.nodup hrights.nodup).mpr hmem
  refine hperm.eq_of_pairwise ?_ hlefts hrights
  intro left right _ _ hlt hgt
  exact absurd hgt (Std.OrientedCmp.not_lt_of_lt hlt)

end

/-! The order of sequences is the lexicographic one, and lawful if that of the elements is. -/

theorem sequences_eq_compareLex (order : Order α) : order.sequences = List.compareLex order := by
  funext lefts rights
  induction lefts generalizing rights with
  | nil => cases rights <;> rfl
  | cons left lefts induction =>
      cases rights with
      | nil => rfl
      | cons right rights =>
          rw [sequences, induction, List.compareLex_cons_cons]

instance lawful_sequences (order : Order α) [Std.TransCmp order] :
    Std.TransCmp order.sequences := by
  rw [sequences_eq_compareLex]
  infer_instance

theorem sequences_cons_cons {left right : α} {lefts rights : List α} :
    order.sequences (left :: lefts) (right :: rights) =
      (order left right).then (order.sequences lefts rights) := rfl

theorem sequences_eq_iff {lefts rights : List α} :
    order.sequences lefts rights = .eq ↔ order.Agree lefts rights := by
  induction lefts generalizing rights with
  | nil => cases rights <;> simp [sequences, Agree]
  | cons left lefts induction =>
      cases rights with
      | nil => simp [sequences, Agree]
      | cons right rights =>
          rw [sequences_cons_cons, agree_cons, ← induction, Ordering.then_eq_eq]

theorem sequences_of_lt {left right : α} (hlt : order left right = .lt) (lefts rights : List α) :
    order.sequences (left :: lefts) (right :: rights) = .lt := by
  rw [sequences_cons_cons, hlt]
  rfl

/-- Between sequences of one length the first difference decides, whatever comes behind. -/
theorem sequences_append_of_lt {lefts rights : List α} (hlength : lefts.length = rights.length)
    (hlt : order.sequences lefts rights = .lt) (afterLefts afterRights : List α) :
    order.sequences (lefts ++ afterLefts) (rights ++ afterRights) = .lt := by
  induction lefts generalizing rights with
  | nil =>
      obtain rfl := List.length_eq_zero_iff.mp hlength.symm
      contradiction
  | cons left lefts induction =>
      cases rights with
      | nil => contradiction
      | cons right rights =>
          rw [sequences_cons_cons, Ordering.then_eq_lt] at hlt
          rw [List.cons_append, List.cons_append, sequences_cons_cons, Ordering.then_eq_lt]
          rcases hlt with hfirst | ⟨hfirst, hrest⟩
          · exact Or.inl hfirst
          · exact Or.inr ⟨hfirst, induction (Nat.succ.inj hlength) hrest⟩

variable [Std.TransCmp order]

theorem sequences_append_left (front lefts rights : List α) :
    order.sequences (front ++ lefts) (front ++ rights) = order.sequences lefts rights := by
  induction front with
  | nil => rfl
  | cons first front induction =>
      have hself : order first first = .eq := Std.ReflCmp.compare_self
      rw [List.cons_append, List.cons_append, sequences_cons_cons, hself, induction]
      rfl

/-- Putting the same beginning in front of sequences leaves them in order. -/
theorem ascends_map_append_left {front : List α} {sequences : List (List α)} :
    order.sequences.Ascends (sequences.map (front ++ ·)) ↔
      order.sequences.Ascends sequences := by
  simp only [Ascends, List.pairwise_map, sequences_append_left]

end Containment.Order
