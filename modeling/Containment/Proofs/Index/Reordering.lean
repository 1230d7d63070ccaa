import Containment.Proofs.Index.Family
import Containment.Proofs.Index.Search
import Containment.Proofs.Order.Transfer

namespace Containment

variable {α : Type} {first second : Order α}

/-- Stored sets and queries, compared by the sets of their classes. -/
def Direction.picks [DecidableEq α] (query picked : Finset α) : Direction → Bool
  | .subsets => picked ⊂ query
  | .supersets => query.Nonempty ∧ query ⊂ picked

theorem Direction.selects_iff_picks [Std.TransCmp first] {query keys : List α}
    {direction : Direction} :
    direction.Selects first query keys ↔
      direction.picks (first.classes query) (first.classes keys) = true := by
  cases direction with
  | subsets =>
      rw [selects_subsets_iff, picks, decide_eq_true_eq, Order.classes_ssubset_iff]
  | supersets =>
      rw [picks, decide_eq_true_eq, Order.classes_ssubset_iff, Finset.nonempty_iff_ne_empty,
        ne_eq, Order.classes_eq_empty_iff]
      rfl

theorem Direction.selects_iff_of_same
    (hsame : ∀ left right, first left right = .eq ↔ second left right = .eq)
    {query keys : List α} {direction : Direction} :
    direction.Selects first query keys ↔ direction.Selects second query keys := by
  cases direction <;> simp only [Selects, Order.properlyIncluded_congr hsame]

variable [Std.TransCmp first] [Std.TransCmp second]
  (hsame : ∀ left right, first left right = .eq ↔ second left right = .eq)

/-! Two families, of classes of two orders, that have the same lists of elements in them. -/

def Family.Matches (left : Family first) (right : Family second) : Prop :=
  ∀ elements, first.classes elements ∈ left ↔ second.classes elements ∈ right

namespace Family.Matches

variable {left : Family first} {right : Family second}

include hsame

theorem add (hmatches : Matches left right) (limit : Nat) (elements : List α) :
    (left.add limit elements).1 = (right.add limit elements).1 ∧
      Matches (left.add limit elements).2 (right.add limit elements).2 := by
  have hmember := hmatches elements
  have hcard := Order.card_classes_congr hsame elements
  unfold Family.add
  by_cases hleft : first.classes elements ∈ left
  · simp only [if_pos hleft, if_pos (hmember.mp hleft), true_and]
    exact hmatches
  · simp only [if_neg hleft, if_neg (mt hmember.mpr hleft), hcard]
    split_ifs
    · exact ⟨rfl, hmatches⟩
    · exact ⟨rfl, hmatches⟩
    · refine ⟨rfl, ?_⟩
      intro other
      rw [Finset.mem_insert, Finset.mem_insert, Order.classes_eq_congr hsame, hmatches other]

theorem serve (hmatches : Matches left right) (limit : Nat) (request : Request α) :
    Matches (left.serve limit request) (right.serve limit request) := by
  cases request with
  | add elements => exact (hmatches.add hsame limit elements).2
  | contains | subsetsOf | supersetsOf | size | isEmpty => exact hmatches

end Family.Matches

namespace Index

/-! What two indexes answer, whatever they are asked for next. Lists of sets are only
related; all else is the same. -/

structure Mirrors (related : List (List α) → List (List α) → Prop)
    (left right : Index α) : Prop where
  add : ∀ took other elements,
    (left.add took elements).answer = (right.add other elements).answer
  contains : ∀ took other elements, ∃ held,
    (left.contains took elements).answer = .ok held ∧
      (right.contains other elements).answer = .ok held
  size : left.size = right.size
  sets : ∃ lefts rights, left.sets = .ok lefts ∧ right.sets = .ok rights ∧
    related lefts rights
  subsetsOf : ∀ took other query, ∃ lefts rights,
    (left.subsetsOf took query).answer = .ok lefts ∧
      (right.subsetsOf other query).answer = .ok rights ∧ related lefts rights
  supersetsOf : ∀ took other query, ∃ lefts rights,
    (left.supersetsOf took query).answer = .ok lefts ∧
      (right.supersetsOf other query).answer = .ok rights ∧ related lefts rights

/-- The same sets, none of them twice, each in the order of its index. -/
structure Paired (first second : Order α) [Std.TransCmp first]
    (lefts rights : List (List α)) : Prop where
  correspond : first.Correspond lefts rights
  nodup : (lefts.map first.classes).Nodup
  left_ascends : ∀ keys ∈ lefts, first.Ascends keys
  right_ascends : ∀ keys ∈ rights, second.Ascends keys

namespace Paired

variable {lefts rights : List (List α)}

omit [Std.TransCmp second] in
theorem of_perm (hpaired : Paired first second lefts rights) {others more : List (List α)}
    (hothers : others.Perm lefts) (hmore : more.Perm rights) :
    Paired first second others more where
  correspond := (hothers.map _).trans (hpaired.correspond.trans (hmore.map _).symm)
  nodup := (hothers.map _).nodup_iff.mpr hpaired.nodup
  left_ascends := fun keys hkeys => hpaired.left_ascends keys (hothers.mem_iff.mp hkeys)
  right_ascends := fun keys hkeys => hpaired.right_ascends keys (hmore.mem_iff.mp hkeys)

omit [Std.TransCmp second] in
include hsame in
theorem select (hpaired : Paired first second lefts rights) (direction : Direction)
    (query : List α) :
    Paired first second
      (lefts.filter fun keys => decide (direction.Selects first query keys))
      (rights.filter fun keys => decide (direction.Selects second query keys)) where
  correspond := by
    have hcorrespond := hpaired.correspond.filter (direction.picks (first.classes query))
    have hpicks : ∀ keys, decide (direction.Selects first query keys) =
        direction.picks (first.classes query) (first.classes keys) := by
      intro keys
      rw [Bool.eq_iff_iff, decide_eq_true_eq, Direction.selects_iff_picks]
    simp only [← Direction.selects_iff_of_same hsame, hpicks]
    exact hcorrespond
  nodup := (List.filter_sublist.map first.classes).nodup hpaired.nodup
  left_ascends := fun keys hkeys => hpaired.left_ascends keys (List.mem_of_mem_filter hkeys)
  right_ascends := fun keys hkeys => hpaired.right_ascends keys (List.mem_of_mem_filter hkeys)

end Paired

theorem Sound.length_of_sets {config : Config} {index : Index α} {family : Family first}
    (hsound : Sound first config index) (hrepresents : Represents index.trie family)
    {stored : List (List α)} (hstored : index.sets = .ok stored) :
    stored.length = index.size := by
  obtain ⟨listed, hlisted, _, hnodup, hsets⟩ := hsound.exists_sets hrepresents
  rw [hstored] at hlisted
  cases hlisted
  rw [size, hrepresents.stored_eq, ← hsets, List.toFinset_card_of_nodup hnodup,
    List.length_map]

/-! Two indexes, each under an order of its own, that stand for the same families. -/

structure Alongside (config : Config) (left right : Index α) (leftFamily : Family first)
    (rightFamily : Family second) : Prop where
  left_sound : Sound first config left
  right_sound : Sound second config right
  left_represents : Represents left.trie leftFamily
  right_represents : Represents right.trie rightFamily
  families : leftFamily.Matches rightFamily

namespace Alongside

variable {config : Config} {left right : Index α} {leftFamily : Family first}
  {rightFamily : Family second}

theorem build (config : Config) (recorder another : Recorder) :
    Alongside config ((Index.build first config).withRecorder recorder)
      ((Index.build second config).withRecorder another) (∅ : Family first)
      (∅ : Family second) where
  left_sound := Sound.build first config recorder
  right_sound := Sound.build second config another
  left_represents := represents_empty
  right_represents := represents_empty
  families := by
    intro elements
    simp

variable (halongside : Alongside config left right leftFamily rightFamily)
include halongside

theorem contains_answers (took other : Elapsed) (elements : List α) :
    ∃ held, (left.contains took elements).answer = .ok held ∧
      (right.contains other elements).answer = .ok held := by
  obtain ⟨held, hheld, hiff⟩ :=
    halongside.left_sound.contains_answer halongside.left_represents took elements
  obtain ⟨otherHeld, hotherHeld, hotherIff⟩ :=
    halongside.right_sound.contains_answer halongside.right_represents other elements
  have heq : otherHeld = held := by
    rw [Bool.eq_iff_iff, hiff, hotherIff, Family.contains, Family.contains,
      halongside.families elements]
  exact ⟨held, hheld, heq ▸ hotherHeld⟩

include hsame

/-- A request that both are given leaves them alongside each other. -/
theorem serve (took other : Elapsed) (request : Request α) :
    Alongside config (left.serve took request).index (right.serve other request).index
      (leftFamily.serve config.maxSetSize.toNat request)
      (rightFamily.serve config.maxSetSize.toNat request) where
  left_sound := halongside.left_sound.serve took request
  right_sound := halongside.right_sound.serve other request
  left_represents :=
    halongside.left_sound.serve_represents halongside.left_represents took request
  right_represents :=
    halongside.right_sound.serve_represents halongside.right_represents other request
  families := halongside.families.serve hsame config.maxSetSize.toNat request

theorem after {calls others : List (Call α)}
    (hrequests : calls.map Prod.snd = others.map Prod.snd) :
    ∃ (leftLater : Family first) (rightLater : Family second),
      Alongside config (left.after calls) (right.after others) leftLater rightLater := by
  induction calls generalizing left right leftFamily rightFamily others with
  | nil =>
      obtain rfl := List.map_eq_nil_iff.mp hrequests.symm
      exact ⟨leftFamily, rightFamily, halongside⟩
  | cons call calls induction =>
      cases others with
      | nil => cases hrequests
      | cons other others =>
          obtain ⟨took, request⟩ := call
          obtain ⟨otherTook, same⟩ := other
          obtain ⟨hrequest, hrest⟩ := List.cons.inj hrequests
          obtain rfl : request = same := hrequest
          exact induction (halongside.serve hsame took otherTook request) hrest

theorem add_answer (took other : Elapsed) (elements : List α) :
    (left.add took elements).answer = (right.add other elements).answer := by
  have hleft :=
    (halongside.left_sound.addition_simulates halongside.left_represents elements).1
  have hright :=
    (halongside.right_sound.addition_simulates halongside.right_represents elements).1
  rw [← (halongside.families.add hsame config.maxSetSize.toNat elements).1] at hright
  exact hleft.trans hright.symm

theorem exists_sets : ∃ lefts rights,
    left.sets = .ok lefts ∧ right.sets = .ok rights ∧ Paired first second lefts rights := by
  obtain ⟨lefts, hlefts, hleftAscends, hleftNodup, hleftSets⟩ :=
    halongside.left_sound.exists_sets halongside.left_represents
  obtain ⟨rights, hrights, hrightAscends, hrightNodup, hrightSets⟩ :=
    halongside.right_sound.exists_sets halongside.right_represents
  have hnodup : (rights.map first.classes).Nodup := by
    rw [List.Nodup, List.pairwise_map] at hrightNodup ⊢
    exact hrightNodup.imp fun hdiffer hclasses =>
      hdiffer ((Order.classes_eq_congr hsame).mp hclasses)
  have hmember : ∀ keys, first.classes keys ∈ lefts.map first.classes ↔
      first.classes keys ∈ rights.map first.classes := by
    intro keys
    calc
      first.classes keys ∈ lefts.map first.classes ↔ first.classes keys ∈ leftFamily := by
        rw [← hleftSets, List.mem_toFinset]
      _ ↔ second.classes keys ∈ rightFamily := halongside.families keys
      _ ↔ first.classes keys ∈ rights.map first.classes := by
        simp only [← hrightSets, List.mem_toFinset, List.mem_map, Order.classes_eq_congr hsame]
  have hcorrespond : first.Correspond lefts rights := by
    apply (List.perm_ext_iff_of_nodup hleftNodup hnodup).mpr
    intro set
    constructor
    · intro hset
      obtain ⟨keys, _, rfl⟩ := List.mem_map.mp hset
      exact (hmember keys).mp hset
    · intro hset
      obtain ⟨keys, _, rfl⟩ := List.mem_map.mp hset
      exact (hmember keys).mpr hset
  exact ⟨lefts, rights, hlefts, hrights, hcorrespond, hleftNodup, hleftAscends, hrightAscends⟩

theorem exists_found (direction : Direction) (took other : Elapsed) (query : List α) :
    ∃ lefts rights, (left.settle took (left.query direction query)).answer = .ok lefts ∧
      (right.settle other (right.query direction query)).answer = .ok rights ∧
      Paired first second lefts rights := by
  obtain ⟨stored, others, hstored, hothers, hpaired⟩ := halongside.exists_sets hsame
  obtain ⟨_, lefts, hlisted, hlefts, hleftPerm, _⟩ :=
    halongside.left_sound.exists_found direction took query
  obtain ⟨_, rights, hlistedToo, hrights, hrightPerm, _⟩ :=
    halongside.right_sound.exists_found direction other query
  rw [hstored] at hlisted
  rw [hothers] at hlistedToo
  cases hlisted
  cases hlistedToo
  exact ⟨lefts, rights, hlefts, hrights,
    (hpaired.select hsame direction query).of_perm hleftPerm hrightPerm⟩

theorem size_eq : left.size = right.size := by
  obtain ⟨lefts, rights, hlefts, hrights, hpaired⟩ := halongside.exists_sets hsame
  have hlength := hpaired.correspond.length_eq
  rw [List.length_map, List.length_map] at hlength
  rw [← halongside.left_sound.length_of_sets halongside.left_represents hlefts, hlength,
    halongside.right_sound.length_of_sets halongside.right_represents hrights]

theorem mirrors {related : List (List α) → List (List α) → Prop}
    (hrelated : ∀ lefts rights, Paired first second lefts rights → related lefts rights) :
    Mirrors related left right where
  add := halongside.add_answer hsame
  contains := halongside.contains_answers
  size := halongside.size_eq hsame
  sets := by
    obtain ⟨lefts, rights, hlefts, hrights, hpaired⟩ := halongside.exists_sets hsame
    exact ⟨lefts, rights, hlefts, hrights, hrelated lefts rights hpaired⟩
  subsetsOf := by
    intro took other query
    obtain ⟨lefts, rights, hlefts, hrights, hpaired⟩ :=
      halongside.exists_found hsame .subsets took other query
    exact ⟨lefts, rights, hlefts, hrights, hrelated lefts rights hpaired⟩
  supersetsOf := by
    intro took other query
    obtain ⟨lefts, rights, hlefts, hrights, hpaired⟩ :=
      halongside.exists_found hsame .supersets took other query
    exact ⟨lefts, rights, hlefts, hrights, hrelated lefts rights hpaired⟩

end Alongside

/-- The same sequences, each of them read backwards. -/
def Turned (lefts rights : List (List α)) : Prop :=
  rights.Perm (lefts.map List.reverse)

theorem Paired.turned {lefts rights : List (List α)}
    (hidentical : ∀ left right, first left right = .eq → left = right)
    (hpaired : Paired first first.reversed lefts rights) : Turned lefts rights :=
  hpaired.correspond.perm_map_reverse hidentical hpaired.left_ascends hpaired.right_ascends
    hpaired.nodup

/-- Two runs of the same requests, under orders that find the same elements equivalent, go
on with the same answers and with lists of the same sets. Where one order is the reverse of
the other and equivalent elements are identical, the lists are those of the other run with
each sequence read backwards. -/
theorem run_mirrors (first second : Order α) [Std.TransCmp first] [Std.TransCmp second]
    (hsame : ∀ left right, first left right = .eq ↔ second left right = .eq)
    (config : Config) (recorder another : Recorder) (calls others : List (Call α))
    (hrequests : calls.map Prod.snd = others.map Prod.snd) :
    Mirrors first.Correspond (run first config recorder calls)
        (run second config another others) ∧
      (second = first.reversed → (∀ left right, first left right = .eq → left = right) →
        Mirrors Turned (run first config recorder calls)
          (run second config another others)) := by
  obtain ⟨_, _, halongside⟩ :=
    (Alongside.build config recorder another).after hsame hrequests
  refine ⟨?_, ?_⟩
  · exact halongside.mirrors hsame fun _ _ hpaired => hpaired.correspond
  · rintro rfl hidentical
    exact halongside.mirrors hsame fun _ _ hpaired => hpaired.turned hidentical

/-- The trie of these sets has another shape when it is read from the other end. -/
def stairCalls : List (Call Int) :=
  [(.zero, .add [1, 2, 3]), (.zero, .add [2, 1]), (.zero, .add [3, 3, 2, 1]),
    (.zero, .add [2]), (.zero, .add [])]

theorem run_mirrors_stairCalls :
    (run Order.natural .default .silent stairCalls).nodeCount = 4 ∧
      (run Order.natural.reversed .default .silent stairCalls).nodeCount = 5 ∧
      Mirrors Order.natural.Correspond (run Order.natural .default .silent stairCalls)
        (run Order.natural.reversed .default .silent stairCalls) ∧
      Mirrors Turned (run Order.natural .default .silent stairCalls)
        (run Order.natural.reversed .default .silent stairCalls) := by
  have hmirrors := run_mirrors (Order.natural : Order Int) Order.natural.reversed
    Order.eq_iff_reversed_eq .default .silent .silent stairCalls stairCalls rfl
  refine ⟨by decide +kernel, by decide +kernel, hmirrors.1, hmirrors.2 rfl ?_⟩
  intro left right
  exact Std.LawfulEqOrd.eq_of_compare

end Index

end Containment
