import Containment.Proofs.Order.Ascent
import Containment.Proofs.Order.Lawful
import Containment.Trie.Subsets

namespace Containment.Trie

variable {α : Type} {order : Order α} {branches : List (Branch α)} {window : List α}

/-! The loop over the branches of a node and a window of the query, with an index into
each of the two lists and the pairs of indices at which it has met equivalent elements. -/

/-- How the branch at an index stands to the element at a position, if both are there. -/
def standingAt (order : Order α) (branches : List (Branch α)) (window : List α)
    (index position : Nat) : Option Ordering :=
  match branches[index]?, window[position]? with
  | some branch, some element => some (order branch.key element)
  | _, _ => none

theorem standingAt_eq_some_iff {index position : Nat} {standing : Ordering} :
    standingAt order branches window index position = some standing ↔
      ∃ branch element, branches[index]? = some branch ∧ window[position]? = some element ∧
        order branch.key element = standing := by
  unfold standingAt
  cases branches[index]? <;> cases window[position]? <;> simp

theorem standingAt_eq_none_iff {index position : Nat} :
    standingAt order branches window index position = none ↔
      branches.length ≤ index ∨ window.length ≤ position := by
  rw [← List.getElem?_eq_none_iff, ← List.getElem?_eq_none_iff]
  unfold standingAt
  cases branches[index]? <;> cases window[position]? <;> simp

theorem bounds_of_standingAt {index position : Nat} {standing : Ordering}
    (hstanding : standingAt order branches window index position = some standing) :
    index < branches.length ∧ position < window.length := by
  obtain ⟨_, _, hbranch, helement, _⟩ := standingAt_eq_some_iff.mp hstanding
  exact ⟨(List.getElem?_eq_some_iff.mp hbranch).1, (List.getElem?_eq_some_iff.mp helement).1⟩

structure Pairing where
  index : Nat
  position : Nat
  /-- In the order in which they were met. -/
  met : List (Nat × Nat)
deriving DecidableEq

namespace Pairing

def start : Pairing :=
  { index := 0, position := 0, met := [] }

/-- The lesser of two elements is passed, and both of them if they are equivalent. -/
def advance (pairing : Pairing) : Ordering → Pairing
  | .lt => { pairing with index := pairing.index + 1 }
  | .gt => { pairing with position := pairing.position + 1 }
  | .eq =>
      { index := pairing.index + 1
        position := pairing.position + 1
        met := pairing.met ++ [(pairing.index, pairing.position)] }

theorem lt_index_advance {pairing : Pairing} {standing : Ordering} {index : Nat} :
    index < (pairing.advance standing).index ↔
      index < pairing.index ∨ index = pairing.index ∧ standing.isLE = true := by
  cases standing <;> simp [advance] <;> omega

theorem lt_position_advance {pairing : Pairing} {standing : Ordering} {position : Nat} :
    position < (pairing.advance standing).position ↔
      position < pairing.position ∨ position = pairing.position ∧ standing.isGE = true := by
  cases standing <;> simp [advance] <;> omega

theorem mem_met_advance {pairing : Pairing} {standing : Ordering} {pair : Nat × Nat} :
    pair ∈ (pairing.advance standing).met ↔
      pair ∈ pairing.met ∨ pair = (pairing.index, pairing.position) ∧ standing = .eq := by
  cases standing <;> simp [advance]

/-- One turn of the loop. There is none once a list is exhausted. -/
def turn (order : Order α) (branches : List (Branch α)) (window : List α)
    (pairing : Pairing) : Option Pairing :=
  (standingAt order branches window pairing.index pairing.position).map pairing.advance

theorem turn_eq_some_iff {pairing later : Pairing} :
    pairing.turn order branches window = some later ↔
      ∃ standing, standingAt order branches window pairing.index pairing.position =
        some standing ∧ pairing.advance standing = later :=
  Option.map_eq_some_iff

theorem turn_eq_none_iff {pairing : Pairing} :
    pairing.turn order branches window = none ↔
      branches.length ≤ pairing.index ∨ window.length ≤ pairing.position := by
  rw [turn, Option.map_eq_none_iff, standingAt_eq_none_iff]

/-- What is left of the two lists, counted together. -/
def left (branches : List (Branch α)) (window : List α) (pairing : Pairing) : Nat :=
  (branches.length - pairing.index) + (window.length - pairing.position)

theorem left_lt_of_turn {pairing later : Pairing}
    (hturn : pairing.turn order branches window = some later) :
    later.left branches window < pairing.left branches window := by
  obtain ⟨standing, hstanding, rfl⟩ := turn_eq_some_iff.mp hturn
  obtain ⟨hindex, hposition⟩ := bounds_of_standingAt hstanding
  cases standing <;> simp only [left, advance] <;> omega

/-- Turn after turn, until there is none. -/
def finish (order : Order α) (branches : List (Branch α)) (window : List α)
    (pairing : Pairing) : Pairing :=
  match _ : pairing.turn order branches window with
  | none => pairing
  | some later => later.finish order branches window
termination_by pairing.left branches window
decreasing_by exact left_lt_of_turn ‹_›

/-- From the first state the loop comes to the second. -/
inductive Passes (order : Order α) (branches : List (Branch α)) (window : List α) :
    Pairing → Pairing → Prop
  | here (pairing : Pairing) : Passes order branches window pairing pairing
  | turn {pairing later last : Pairing}
      (hturn : pairing.turn order branches window = some later)
      (hrest : Passes order branches window later last) :
      Passes order branches window pairing last

theorem passes_finish (order : Order α) (branches : List (Branch α)) (window : List α)
    (pairing : Pairing) :
    Passes order branches window pairing (pairing.finish order branches window) := by
  fun_induction finish order branches window pairing with
  | case1 pairing _ => exact .here pairing
  | case2 _ _ hturn induction => exact .turn hturn induction

theorem turn_finish (order : Order α) (branches : List (Branch α)) (window : List α)
    (pairing : Pairing) :
    (pairing.finish order branches window).turn order branches window = none := by
  fun_induction finish order branches window pairing with
  | case1 _ hnone => exact hnone
  | case2 _ _ _ induction => exact induction

/-- What every turn keeps holds wherever the loop comes. -/
theorem Passes.keeps {motive : Pairing → Prop}
    (hstep : ∀ pairing later, motive pairing →
      pairing.turn order branches window = some later → motive later)
    {first last : Pairing} (hpasses : Passes order branches window first last)
    (hfirst : motive first) : motive last := by
  induction hpasses with
  | here => exact hfirst
  | turn hturn _ induction => exact induction (hstep _ _ hfirst hturn)

/-! Under any comparison the indices stay within the lists. -/

def Within (branches : List (Branch α)) (window : List α) (pairing : Pairing) : Prop :=
  pairing.index ≤ branches.length ∧ pairing.position ≤ window.length

theorem Within.turn {pairing later : Pairing} (hwithin : pairing.Within branches window)
    (hturn : pairing.turn order branches window = some later) :
    later.Within branches window := by
  obtain ⟨standing, hstanding, rfl⟩ := turn_eq_some_iff.mp hturn
  obtain ⟨hindex, hposition⟩ := bounds_of_standingAt hstanding
  cases standing with
  | lt => exact ⟨hindex, hwithin.2⟩
  | eq => exact ⟨hindex, hposition⟩
  | gt => exact ⟨hwithin.1, hposition⟩

theorem Within.exhausted {pairing : Pairing} (hwithin : pairing.Within branches window)
    (hturn : pairing.turn order branches window = none) :
    pairing.index = branches.length ∨ pairing.position = window.length :=
  (turn_eq_none_iff.mp hturn).imp (Nat.le_antisymm hwithin.1) (Nat.le_antisymm hwithin.2)

/-! What the search takes from the loop, under any comparison too: for each pair that was
met the branch, and what the window has behind the element. -/

def Shows (branches : List (Branch α)) (window : List α) (pair : Nat × Nat)
    (shared : Shared α) : Prop :=
  branches[pair.1]? = some shared.branch ∧ shared.remaining = window.drop (pair.2 + 1)

private theorem sharedWith_of_exhausted {pairing : Pairing}
    (hturn : pairing.turn order branches window = none) :
    sharedWith order (branches.drop pairing.index) (window.drop pairing.position) = [] := by
  rcases turn_eq_none_iff.mp hturn with hindex | hposition
  · rw [List.drop_of_length_le hindex, sharedWith]
  · rw [List.drop_of_length_le hposition]
    cases branches.drop pairing.index <;> rw [sharedWith]

private theorem drop_of_getElem? {ι : Type} {entries : List ι} {place : Nat} {entry : ι}
    (hentry : entries[place]? = some entry) :
    entries.drop place = entry :: entries.drop (place + 1) := by
  obtain ⟨hplace, rfl⟩ := List.getElem?_eq_some_iff.mp hentry
  exact List.drop_eq_getElem_cons hplace

theorem finish_shows (order : Order α) (branches : List (Branch α)) (window : List α)
    (pairing : Pairing) :
    ∃ later, (pairing.finish order branches window).met = pairing.met ++ later ∧
      List.Forall₂ (Shows branches window) later
        (sharedWith order (branches.drop pairing.index) (window.drop pairing.position)) := by
  fun_induction finish order branches window pairing with
  | case1 pairing hnone =>
      refine ⟨[], (List.append_nil _).symm, ?_⟩
      rw [sharedWith_of_exhausted hnone]
      exact List.Forall₂.nil
  | case2 pairing later hturn induction =>
      obtain ⟨found, hfound, hshows⟩ := induction
      obtain ⟨standing, hstanding, rfl⟩ := turn_eq_some_iff.mp hturn
      obtain ⟨branch, element, hbranch, helement, hcompare⟩ :=
        standingAt_eq_some_iff.mp hstanding
      rw [drop_of_getElem? hbranch, drop_of_getElem? helement, sharedWith, hcompare]
      cases standing with
      | lt =>
          refine ⟨found, hfound, ?_⟩
          rw [← drop_of_getElem? helement]
          exact hshows
      | gt =>
          refine ⟨found, hfound, ?_⟩
          rw [← drop_of_getElem? hbranch]
          exact hshows
      | eq =>
          refine ⟨(pairing.index, pairing.position) :: found, ?_, .cons ⟨hbranch, rfl⟩ hshows⟩
          rw [hfound, advance, List.append_assoc, List.singleton_append]

end Pairing

/-! Where both lists ascend under a lawful order, one comparison speaks for all that
comes later. -/

section Ascending

variable [Std.TransCmp order] {index position : Nat} {standing : Ordering}

/-- A branch that is not above an element has no counterpart behind that element. -/
theorem counterpart_position_eq (hwindow : order.Ascends window)
    (hstanding : standingAt order branches window index position = some standing)
    (hle : standing.isLE = true) {other : Nat} (hother : position ≤ other)
    (hmet : standingAt order branches window index other = some .eq) : other = position := by
  obtain ⟨branch, element, hbranch, helement, rfl⟩ := standingAt_eq_some_iff.mp hstanding
  obtain ⟨found, counterpart, hfound, hcounterpart, heq⟩ := standingAt_eq_some_iff.mp hmet
  rw [hbranch] at hfound
  cases hfound
  rcases Nat.eq_or_lt_of_le hother with hsame | hlater
  · exact hsame.symm
  · have hlt : order branch.key counterpart = .lt :=
      Std.TransCmp.lt_of_isLE_of_lt hle (hwindow.lt_at hlater helement hcounterpart)
    rw [hlt] at heq
    contradiction

/-- An element that is not above a branch has no counterpart behind that branch. -/
theorem counterpart_index_eq (hbranches : order.Ascends (branches.map Branch.key))
    (hstanding : standingAt order branches window index position = some standing)
    (hge : standing.isGE = true) {other : Nat} (hother : index ≤ other)
    (hmet : standingAt order branches window other position = some .eq) : other = index := by
  obtain ⟨branch, element, hbranch, helement, rfl⟩ := standingAt_eq_some_iff.mp hstanding
  obtain ⟨counterpart, found, hcounterpart, hfound, heq⟩ := standingAt_eq_some_iff.mp hmet
  rw [helement] at hfound
  cases hfound
  rcases Nat.eq_or_lt_of_le hother with hsame | hlater
  · exact hsame.symm
  · have hkey : (branches.map Branch.key)[index]? = some branch.key := by
      rw [List.getElem?_map, hbranch, Option.map_some]
    have hotherKey : (branches.map Branch.key)[other]? = some counterpart.key := by
      rw [List.getElem?_map, hcounterpart, Option.map_some]
    have hgt : order counterpart.key element = .gt := Std.TransCmp.gt_of_gt_of_isGE
      (Std.OrientedCmp.gt_of_lt (hbranches.lt_at hlater hkey hotherKey)) hge
    rw [hgt] at heq
    contradiction

end Ascending

namespace Pairing

/-- Of two equivalent elements neither is passed without the other, and the pairs that
have been passed are the ones that were met. -/
structure Exact (order : Order α) (branches : List (Branch α)) (window : List α)
    (pairing : Pairing) : Prop where
  together : ∀ index position,
    standingAt order branches window index position = some .eq →
      (index < pairing.index ↔ position < pairing.position)
  mem_met_iff : ∀ index position, (index, position) ∈ pairing.met ↔
    standingAt order branches window index position = some .eq ∧
      index < pairing.index ∧ position < pairing.position
  ascending : pairing.met.Pairwise fun earlier later =>
    earlier.1 < later.1 ∧ earlier.2 < later.2

theorem exact_start (order : Order α) (branches : List (Branch α)) (window : List α) :
    Exact order branches window start where
  together := by simp [start]
  mem_met_iff := by simp [start]
  ascending := List.Pairwise.nil

section Turn

variable [Std.TransCmp order] (hbranches : order.Ascends (branches.map Branch.key))
  (hwindow : order.Ascends window) {pairing later : Pairing}
include hbranches hwindow

/-- A turn passes two equivalent elements together or neither of them. What stands before
the counterpart has been passed already, without it; what stands behind is too great. -/
theorem Exact.counterpart_iff (hexact : pairing.Exact order branches window)
    {standing : Ordering}
    (hstanding : standingAt order branches window pairing.index pairing.position =
      some standing) {index position : Nat}
    (hmet : standingAt order branches window index position = some .eq) :
    (index = pairing.index ∧ standing.isLE = true) ↔
      (position = pairing.position ∧ standing.isGE = true) := by
  have htogether := hexact.together index position hmet
  constructor
  · rintro ⟨rfl, hle⟩
    obtain rfl := counterpart_position_eq hwindow hstanding hle (by omega) hmet
    rw [hmet] at hstanding
    cases hstanding
    exact ⟨rfl, rfl⟩
  · rintro ⟨rfl, hge⟩
    obtain rfl := counterpart_index_eq hbranches hstanding hge (by omega) hmet
    rw [hmet] at hstanding
    cases hstanding
    exact ⟨rfl, rfl⟩

theorem Exact.turn (hexact : pairing.Exact order branches window)
    (hturn : pairing.turn order branches window = some later) :
    later.Exact order branches window := by
  obtain ⟨standing, hstanding, rfl⟩ := turn_eq_some_iff.mp hturn
  constructor
  case together =>
    intro index position hmet
    rw [lt_index_advance, lt_position_advance, hexact.together index position hmet,
      hexact.counterpart_iff hbranches hwindow hstanding hmet]
  case mem_met_iff =>
    intro index position
    rw [mem_met_advance, hexact.mem_met_iff, lt_index_advance, lt_position_advance]
    constructor
    · rintro (⟨hmet, hindex, hposition⟩ | ⟨⟨rfl, rfl⟩, rfl⟩)
      · exact ⟨hmet, Or.inl hindex, Or.inl hposition⟩
      · exact ⟨hstanding, Or.inr ⟨rfl, rfl⟩, Or.inr ⟨rfl, rfl⟩⟩
    · rintro ⟨hmet, hindex | ⟨rfl, hle⟩, _⟩
      · exact Or.inl ⟨hmet, hindex, (hexact.together index position hmet).mp hindex⟩
      · obtain ⟨rfl, _⟩ :=
          (hexact.counterpart_iff hbranches hwindow hstanding hmet).mp ⟨rfl, hle⟩
        rw [hmet] at hstanding
        cases hstanding
        exact Or.inr ⟨rfl, rfl⟩
  case ascending =>
    cases standing with
    | lt | gt => exact hexact.ascending
    | eq =>
        refine List.pairwise_append.mpr ⟨hexact.ascending, List.pairwise_singleton _ _, ?_⟩
        rintro ⟨index, position⟩ hmem later hlater
        obtain rfl := List.mem_singleton.mp hlater
        exact ((hexact.mem_met_iff index position).mp hmem).2

theorem Passes.exact (hpasses : Passes order branches window start pairing) :
    pairing.Exact order branches window :=
  hpasses.keeps (fun _ _ hexact hturn => hexact.turn hbranches hwindow hturn)
    (exact_start order branches window)

end Turn

section Exact

variable {pairing : Pairing} (hexact : pairing.Exact order branches window)
include hexact

theorem Exact.met_nodup : pairing.met.Nodup := by
  refine hexact.ascending.imp ?_
  rintro pair _ ⟨hindex, _⟩ rfl
  exact Nat.lt_irrefl _ hindex

theorem Exact.mem_met_of_passed {index position : Nat}
    (hmet : standingAt order branches window index position = some .eq)
    (hpassed : index < pairing.index ∨ position < pairing.position) :
    (index, position) ∈ pairing.met := by
  have htogether := hexact.together index position hmet
  refine (hexact.mem_met_iff index position).mpr ⟨hmet, ?_⟩
  rcases hpassed with hindex | hposition
  · exact ⟨hindex, htogether.mp hindex⟩
  · exact ⟨htogether.mpr hposition, hposition⟩

/-- Where a list is exhausted the pairs that were met are all there are. -/
theorem Exact.mem_met_iff_of_exhausted
    (hexhausted : pairing.index = branches.length ∨ pairing.position = window.length)
    {index position : Nat} : (index, position) ∈ pairing.met ↔
      standingAt order branches window index position = some .eq := by
  refine ⟨fun hmem => ((hexact.mem_met_iff index position).mp hmem).1, ?_⟩
  intro hmet
  obtain ⟨hindex, hposition⟩ := bounds_of_standingAt hmet
  rcases hexhausted with hend | hend
  · exact hexact.mem_met_of_passed hmet (Or.inl (hend ▸ hindex))
  · exact hexact.mem_met_of_passed hmet (Or.inr (hend ▸ hposition))

end Exact

end Pairing

/-! The loop in full: how it ends, what it has met by then, and what it has passed on
the way there. -/

structure FindsCommon (order : Order α) (branches : List (Branch α)) (window : List α)
    (last : Pairing) : Prop where
  passes : Pairing.Passes order branches window .start last
  exhausted : last.index = branches.length ∨ last.position = window.length
  /-- Each pair of equivalent elements was met once, and no other pair. -/
  count_met : ∀ index position, last.met.count (index, position) =
    if standingAt order branches window index position = some .eq then 1 else 0
  ascending : last.met.Pairwise fun earlier later =>
    earlier.1 < later.1 ∧ earlier.2 < later.2
  /-- At no point has an element been passed that has a counterpart and was not met. -/
  none_skipped : ∀ pairing, Pairing.Passes order branches window .start pairing →
    ∀ index position, standingAt order branches window index position = some .eq →
      index < pairing.index ∨ position < pairing.position → (index, position) ∈ pairing.met
  /-- The search goes on from the pairs that were met, in their order. -/
  shares : List.Forall₂ (Pairing.Shows branches window) last.met
    (sharedWith order branches window)

/-- The loop finds everything that ascending branches and an ascending window have in
common, and finds it once. -/
theorem sharedWith_findsCommon (order : Order α) [Std.TransCmp order]
    (branches : List (Branch α)) (window : List α)
    (hbranches : order.Ascends (branches.map Branch.key)) (hwindow : order.Ascends window) :
    FindsCommon order branches window (Pairing.start.finish order branches window) := by
  have hpasses := Pairing.passes_finish order branches window .start
  have hexact := hpasses.exact hbranches hwindow
  have hwithin : (Pairing.start.finish order branches window).Within branches window :=
    hpasses.keeps (fun _ _ hwithin hturn => hwithin.turn hturn) ⟨Nat.zero_le _, Nat.zero_le _⟩
  have hexhausted := hwithin.exhausted (Pairing.turn_finish order branches window .start)
  obtain ⟨later, hlater, hshows⟩ := Pairing.finish_shows order branches window .start
  constructor
  case passes => exact hpasses
  case exhausted => exact hexhausted
  case count_met =>
    intro index position
    rw [hexact.met_nodup.count]
    simp only [hexact.mem_met_iff_of_exhausted hexhausted]
  case ascending => exact hexact.ascending
  case none_skipped =>
    intro pairing hpassed index position hmet hbehind
    exact (hpassed.exact hbranches hwindow).mem_met_of_passed hmet hbehind
  case shares =>
    rw [hlater]
    exact hshows

/-- Their last digits are 0, 1, 3, 5 and 8. -/
def digitBranches : List (Branch Int) :=
  [{ key := 30, child := 1 }, { key := 21, child := 2 }, { key := 13, child := 3 },
    { key := 5, child := 4 }, { key := 18, child := 5 }]

/-- Three of the branches have counterparts, none of which is the key itself. -/
theorem sharedWith_findsCommon_digitBranches :
    Pairing.start.finish Order.byLastDigit digitBranches [11, 12, 23, 4, 35, 9] =
        { index := 5, position := 5, met := [(1, 0), (2, 2), (3, 4)] } ∧
      Order.byLastDigit.Ascends (digitBranches.map Branch.key) ∧
      Order.byLastDigit.Ascends [11, 12, 23, 4, 35, 9] ∧
      FindsCommon Order.byLastDigit digitBranches [11, 12, 23, 4, 35, 9]
        (Pairing.start.finish Order.byLastDigit digitBranches [11, 12, 23, 4, 35, 9]) :=
  have hbranches : Order.byLastDigit.Ascends (digitBranches.map Branch.key) := by
    decide +kernel
  have hwindow : Order.byLastDigit.Ascends [11, 12, 23, 4, 35, 9] := by decide +kernel
  ⟨by decide +kernel, hbranches, hwindow,
    sharedWith_findsCommon Order.byLastDigit digitBranches [11, 12, 23, 4, 35, 9] hbranches
      hwindow⟩

end Containment.Trie
