import Containment.Order
import Containment.Proofs.Correspondence

namespace Containment.Order

variable {α : Type} {order : Order α}

/-! Strictly ascending sequences. Under a lawful order the look at neighbours that
`ascending` takes says as much as a look at every pair. -/

def Ascends (order : Order α) (elements : List α) : Prop :=
  elements.Pairwise fun left right => order left right = .lt

instance (order : Order α) (elements : List α) :
    Decidable (order.Ascends elements) :=
  inferInstanceAs (Decidable (elements.Pairwise _))

@[simp] theorem ascends_nil : order.Ascends [] :=
  List.Pairwise.nil

@[simp] theorem ascends_singleton (element : α) : order.Ascends [element] :=
  List.pairwise_singleton _ element

theorem ascends_cons {first : α} {rest : List α} :
    order.Ascends (first :: rest) ↔
      (∀ later ∈ rest, order first later = .lt) ∧ order.Ascends rest :=
  List.pairwise_cons

theorem Ascends.tail {first : α} {rest : List α}
    (hascends : order.Ascends (first :: rest)) : order.Ascends rest :=
  (ascends_cons.mp hascends).2

theorem Ascends.head_lt {first later : α} {rest : List α}
    (hascends : order.Ascends (first :: rest)) (hlater : later ∈ rest) :
    order first later = .lt :=
  (ascends_cons.mp hascends).1 later hlater

theorem Ascends.lt_at {elements : List α} (hascends : order.Ascends elements)
    {lower upper : Nat} {left right : α} (hlt : lower < upper)
    (hleft : elements[lower]? = some left) (hright : elements[upper]? = some right) :
    order left right = .lt := by
  obtain ⟨hlower, rfl⟩ := List.getElem?_eq_some_iff.mp hleft
  obtain ⟨hupper, rfl⟩ := List.getElem?_eq_some_iff.mp hright
  exact List.pairwise_iff_getElem.mp hascends lower upper hlower hupper hlt

theorem Ascends.of_append_right {front back : List α}
    (hascends : order.Ascends (front ++ back)) : order.Ascends back :=
  (List.pairwise_append.mp hascends).2.1

/-! Sequences that agree: equally long, and equivalent at every position. -/

def Agree (order : Order α) (lefts rights : List α) : Prop :=
  List.Forall₂ (fun left right => order left right = .eq) lefts rights

@[simp] theorem agree_nil : order.Agree [] [] :=
  List.Forall₂.nil

theorem agree_cons {left right : α} {lefts rights : List α} :
    order.Agree (left :: lefts) (right :: rights) ↔
      order left right = .eq ∧ order.Agree lefts rights :=
  List.forall₂_cons

theorem Agree.length_eq {lefts rights : List α}
    (hagree : order.Agree lefts rights) : lefts.length = rights.length :=
  List.Forall₂.length_eq hagree

theorem Agree.append {lefts rights : List α} {moreLefts moreRights : List α}
    (hagree : order.Agree lefts rights) (hmore : order.Agree moreLefts moreRights) :
    order.Agree (lefts ++ moreLefts) (rights ++ moreRights) :=
  List.rel_append hagree hmore

theorem Agree.take {lefts rights : List α} (hagree : order.Agree lefts rights)
    (count : Nat) : order.Agree (lefts.take count) (rights.take count) :=
  List.forall₂_take count hagree

section Identical

variable (hidentical : ∀ first second, order first second = .eq → first = second)
include hidentical

theorem Agree.eq {lefts rights : List α} (hagree : order.Agree lefts rights) :
    lefts = rights := by
  have hequal : List.Forall₂ (· = ·) lefts rights :=
    List.Forall₂.imp (fun first second => hidentical first second) hagree
  rwa [List.forall₂_eq_eq_eq] at hequal

theorem eq_of_forall₂_agree {lefts rights : List (List α)}
    (hpairs : List.Forall₂ order.Agree lefts rights) : lefts = rights := by
  have hequal : List.Forall₂ (· = ·) lefts rights :=
    hpairs.imp fun _ _ => Agree.eq hidentical
  rwa [List.forall₂_eq_eq_eq] at hequal

end Identical

theorem Agree.exists_append {front back rights : List α}
    (hagree : order.Agree (front ++ back) rights) :
    ∃ rightFront rightBack, rights = rightFront ++ rightBack ∧
      order.Agree front rightFront ∧ order.Agree back rightBack := by
  have hfront := List.forall₂_take front.length hagree
  have hback := List.forall₂_drop front.length hagree
  rw [List.take_left] at hfront
  rw [List.drop_left] at hback
  exact ⟨_, _, (List.take_append_drop front.length rights).symm, hfront, hback⟩

/-- The element is the first of its class in a list. -/
def Foremost (order : Order α) (elements : List α) (element : α) : Prop :=
  ∃ front back, elements = front ++ element :: back ∧
    ∀ other ∈ front, order other element ≠ .eq

variable [Std.TransCmp order]

/-- Below the first of an ascending sequence is below all of it. -/
theorem Ascends.cons_of_lt {above first : α} {rest : List α}
    (hascends : order.Ascends (first :: rest)) (hlt : order above first = .lt) :
    order.Ascends (above :: first :: rest) := by
  refine ascends_cons.mpr ⟨?_, hascends⟩
  intro later hlater
  rcases List.mem_cons.mp hlater with rfl | hrest
  · exact hlt
  · exact Std.TransCmp.lt_trans hlt (hascends.head_lt hrest)

/-- Above the last of an ascending sequence is above all of it. -/
theorem Ascends.snoc {keys : List α} {last key : α}
    (hascends : order.Ascends (keys ++ [last])) (hlt : order last key = .lt) :
    order.Ascends (keys ++ [last] ++ [key]) := by
  refine List.pairwise_append.mpr ⟨hascends, ascends_singleton key, ?_⟩
  intro earlier hearlier later hlater
  obtain rfl := List.mem_singleton.mp hlater
  rcases List.mem_append.mp hearlier with hfront | hlast
  · obtain ⟨_, _, hacross⟩ := List.pairwise_append.mp hascends
    exact Std.TransCmp.lt_trans (hacross earlier hfront last List.mem_cons_self) hlt
  · rwa [List.mem_singleton.mp hlast]

theorem ascending_eq_true_iff {elements : List α} :
    order.ascending elements = true ↔ order.Ascends elements := by
  induction elements with
  | nil => simp
  | cons first rest induction =>
      cases rest with
      | nil => simp
      | cons second rest =>
          rw [ascending_cons_cons, Bool.and_eq_true, induction, beq_iff_eq]
          constructor
          · intro hboth
            obtain ⟨hlt, hrest⟩ := hboth
            exact hrest.cons_of_lt hlt
          · intro hascends
            exact ⟨hascends.head_lt List.mem_cons_self, hascends.tail⟩

theorem Agree.refl (elements : List α) : order.Agree elements elements :=
  List.forall₂_same.mpr fun _ _ => Std.ReflCmp.compare_self

theorem Agree.symm {lefts rights : List α}
    (hagree : order.Agree lefts rights) : order.Agree rights lefts := by
  induction hagree with
  | nil => exact agree_nil
  | cons heq _ induction =>
      exact agree_cons.mpr ⟨Std.OrientedCmp.eq_symm heq, induction⟩

theorem Agree.trans {lefts middles rights : List α}
    (hleft : order.Agree lefts middles) (hright : order.Agree middles rights) :
    order.Agree lefts rights := by
  induction hleft generalizing rights with
  | nil => exact hright
  | cons heq _ induction =>
      cases hright with
      | cons hnext hrest =>
          exact agree_cons.mpr
            ⟨Std.TransCmp.eq_trans heq hnext, induction hrest⟩

/-- Equivalent elements may take each other's places in an ascending sequence. -/
theorem Ascends.of_agree {lefts rights : List α}
    (hascends : order.Ascends lefts) (hagree : order.Agree lefts rights) :
    order.Ascends rights := by
  induction hagree with
  | nil => exact ascends_nil
  | cons heq hrest induction =>
      refine ascends_cons.mpr ⟨?_, induction hascends.tail⟩
      intro later hlater
      obtain ⟨left, hleft, hequivalent⟩ := exists_of_forall₂ hrest hlater
      have hlt : order _ left = .lt := hascends.head_lt hleft
      have hfirst : order _ left = .lt :=
        Std.TransCmp.lt_of_eq_of_lt (Std.OrientedCmp.eq_symm heq) hlt
      exact Std.TransCmp.lt_of_lt_of_eq hfirst hequivalent

/-- Entries with ascending keys are told apart by their keys. -/
theorem Ascends.entry_unique {ι : Type} {key : ι → α} {entries : List ι}
    (hascends : order.Ascends (entries.map key)) {left right : ι}
    (hleft : left ∈ entries) (hright : right ∈ entries)
    (heq : order (key left) (key right) = .eq) : left = right := by
  induction entries with
  | nil => cases hleft
  | cons first rest induction =>
      rcases List.mem_cons.mp hleft with rfl | hleftRest
      · rcases List.mem_cons.mp hright with rfl | hrightRest
        · rfl
        · rw [hascends.head_lt (List.mem_map_of_mem hrightRest)] at heq
          contradiction
      · rcases List.mem_cons.mp hright with rfl | hrightRest
        · have hreverse := Std.OrientedCmp.eq_symm heq
          rw [hascends.head_lt (List.mem_map_of_mem hleftRest)] at hreverse
          contradiction
        · exact induction hascends.tail hleftRest hrightRest

end Containment.Order
