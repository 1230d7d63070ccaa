import Containment.Bisect
import Mathlib.Data.List.TakeWhile

namespace Containment

variable {ι : Type}

/-! Search by halving, first for any standing of the entries at all: an entry that
is met stands at what is looked for, and a gap lies within the list. -/

theorem bisectFrom_met {standing : ι → Ordering} {start index : Nat}
    {entries : List ι} {entry : ι}
    (hmet : bisectFrom standing start entries = .met index entry) :
    entry ∈ entries ∧ standing entry = .eq := by
  fun_induction bisectFrom standing start entries with
  | case1 => contradiction
  | case2 | case4 => contradiction
  | case3 start entry heq =>
      cases hmet
      exact ⟨List.mem_singleton_self entry, heq⟩
  | case5 start first second rest window half _ induction =>
      obtain ⟨hmem, heq⟩ := induction hmet
      exact ⟨List.mem_of_mem_take hmem, heq⟩
  | case6 start first second rest window half _ induction =>
      obtain ⟨hmem, heq⟩ := induction hmet
      exact ⟨List.mem_of_mem_drop hmem, heq⟩

theorem bisectFrom_met_at {standing : ι → Ordering} {start index : Nat}
    {entries : List ι} {entry : ι}
    (hmet : bisectFrom standing start entries = .met index entry) :
    start ≤ index ∧ entries[index - start]? = some entry := by
  fun_induction bisectFrom standing start entries with
  | case1 => contradiction
  | case2 | case4 => contradiction
  | case3 start entry =>
      cases hmet
      simp
  | case5 start first second rest window half _ induction =>
      obtain ⟨hstart, hentry⟩ := induction hmet
      rw [List.getElem?_take] at hentry
      split at hentry
      · exact ⟨hstart, hentry⟩
      · contradiction
  | case6 start first second rest window half _ induction =>
      obtain ⟨hstart, hentry⟩ := induction hmet
      rw [List.getElem?_drop] at hentry
      refine ⟨by omega, ?_⟩
      have hposition : index - start = half + (index - (start + half)) := by omega
      rw [hposition]
      exact hentry

theorem bisectFrom_gap_within {standing : ι → Ordering} {start index : Nat}
    {entries : List ι} (hgap : bisectFrom standing start entries = .gap index) :
    start ≤ index ∧ index ≤ start + entries.length := by
  fun_induction bisectFrom standing start entries with
  | case1 => cases hgap; simp
  | case2 | case4 => cases hgap; simp
  | case3 => contradiction
  | case5 start first second rest window half _ induction =>
      have hwithin := induction hgap
      rw [List.length_take] at hwithin
      change start ≤ index ∧ index ≤ start + window.length
      omega
  | case6 start first second rest window half _ induction =>
      have hwithin := induction hgap
      have hhalf : half ≤ window.length := Nat.div_le_self _ _
      rw [List.length_drop] at hwithin
      change start ≤ index ∧ index ≤ start + window.length
      omega

/-! Entries that stand first below, then at, then above what is looked for. -/

def Graded (standing : ι → Ordering) (entries : List ι) : Prop :=
  entries.Pairwise fun left right =>
    (standing left = .gt → standing right = .gt) ∧
      (standing right = .lt → standing left = .lt)

/-- The entries up to a gap are below it, the others above. -/
def Parted (standing : ι → Ordering) (position : Nat) (entries : List ι) : Prop :=
  (∀ entry ∈ entries.take position, standing entry = .lt) ∧
    ∀ entry ∈ entries.drop position, standing entry = .gt

theorem Parted.standing_ne_eq {standing : ι → Ordering} {position : Nat}
    {entries : List ι} (hparted : Parted standing position entries)
    {entry : ι} (hentry : entry ∈ entries) : standing entry ≠ .eq := by
  rw [← List.take_append_drop position entries, List.mem_append] at hentry
  rcases hentry with hbelow | habove
  · rw [hparted.1 entry hbelow]; decide
  · rw [hparted.2 entry habove]; decide

/-- A gap in the front part is one in the whole if all the rest stands above. -/
private theorem Parted.of_take {standing : ι → Ordering} {position count : Nat}
    {entries : List ι} (hle : position ≤ count)
    (hparted : Parted standing position (entries.take count))
    (habove : ∀ entry ∈ entries.drop count, standing entry = .gt) :
    Parted standing position entries := by
  constructor
  · intro entry hentry
    refine hparted.1 entry ?_
    rwa [List.take_take, Nat.min_eq_left hle]
  · intro entry hentry
    rw [← List.take_append_drop count entries, List.drop_append,
      List.mem_append] at hentry
    rcases hentry with hfront | hback
    · exact hparted.2 entry hfront
    · exact habove entry (List.mem_of_mem_drop hback)

/-- A gap in the back part is one in the whole if all before it stands below. -/
private theorem Parted.of_drop {standing : ι → Ordering} {position count : Nat}
    {entries : List ι} (hparted : Parted standing position (entries.drop count))
    (hbelow : ∀ entry ∈ entries.take count, standing entry = .lt) :
    Parted standing (count + position) entries := by
  constructor
  · intro entry hentry
    rw [List.take_add, List.mem_append] at hentry
    rcases hentry with hfront | hback
    · exact hbelow entry hfront
    · exact hparted.1 entry hback
  · intro entry hentry
    rw [← List.drop_drop] at hentry
    exact hparted.2 entry hentry

private theorem Graded.take {standing : ι → Ordering} {entries : List ι}
    (hgraded : Graded standing entries) (count : Nat) :
    Graded standing (entries.take count) :=
  List.Pairwise.sublist (List.take_sublist count entries) hgraded

private theorem Graded.drop {standing : ι → Ordering} {entries : List ι}
    (hgraded : Graded standing entries) (count : Nat) :
    Graded standing (entries.drop count) :=
  List.Pairwise.sublist (List.drop_sublist count entries) hgraded

private theorem Graded.split {standing : ι → Ordering} {entries : List ι}
    (hgraded : Graded standing entries) {middle : Nat} {pivot : ι}
    (hpivot : entries[middle]? = some pivot) :
    (standing pivot = .gt → ∀ entry ∈ entries.drop middle, standing entry = .gt) ∧
      (standing pivot = .lt → ∀ entry ∈ entries.take middle, standing entry = .lt) := by
  obtain ⟨hmiddle, rfl⟩ := List.getElem?_eq_some_iff.mp hpivot
  have hsplit : entries = entries.take middle ++ entries[middle] :: entries.drop (middle + 1) := by
    rw [← List.drop_eq_getElem_cons hmiddle, List.take_append_drop]
  rw [Graded, hsplit, List.pairwise_append, List.pairwise_cons] at hgraded
  obtain ⟨_, ⟨hafter, _⟩, hbefore⟩ := hgraded
  constructor
  · intro hgt entry hentry
    rw [List.drop_eq_getElem_cons hmiddle] at hentry
    rcases List.mem_cons.mp hentry with rfl | hlater
    · exact hgt
    · exact (hafter entry hlater).1 hgt
  · intro hlt entry hentry
    exact (hbefore entry hentry _ List.mem_cons_self).2 hlt

private theorem bisectFrom_gap {standing : ι → Ordering} {start index : Nat}
    {entries : List ι} (hgraded : Graded standing entries)
    (hgap : bisectFrom standing start entries = .gap index) :
    Parted standing (index - start) entries := by
  fun_induction bisectFrom standing start entries with
  | case1 => simp [Parted]
  | case2 start entry hlt =>
      cases hgap
      simp [Parted, hlt]
  | case3 => contradiction
  | case4 start entry hgt =>
      cases hgap
      simp [Parted, hgt]
  | case5 start first second rest window half hmiddle induction =>
      have htwo : 2 ≤ window.length := by simp [window]
      have hwithin := bisectFrom_gap_within hgap
      rw [List.length_take] at hwithin
      obtain ⟨pivot, hpivot, hgt⟩ := Option.map_eq_some_iff.mp hmiddle
      have habove := (hgraded.split hpivot).1 hgt
      refine (induction (hgraded.take _) hgap).of_take (by omega) ?_
      intro entry hentry
      have hle : half ≤ window.length - half := by omega
      exact habove entry (List.drop_subset_drop_left window hle hentry)
  | case6 start first second rest window half hmiddle induction =>
      have htwo : 2 ≤ window.length := by simp [window]
      have hhalf : half < window.length := by omega
      have hwithin := bisectFrom_gap_within hgap
      have hparted := induction (hgraded.drop _) hgap
      have hpivot : window[half]? = some window[half] :=
        List.getElem?_eq_getElem hhalf
      have hmem : window[half] ∈ window.drop half := by
        rw [List.drop_eq_getElem_cons hhalf]
        exact List.mem_cons_self
      have hlt : standing window[half] = .lt := by
        cases hstanding : standing window[half] with
        | lt => rfl
        | eq => exact absurd hstanding (hparted.standing_ne_eq hmem)
        | gt => exact absurd (by rw [hpivot, Option.map_some, hstanding]) hmiddle
      have hposition : index - start = half + (index - (start + half)) := by omega
      rw [hposition]
      exact hparted.of_drop ((hgraded.split hpivot).2 hlt)

theorem bisect_met {standing : ι → Ordering} {entries : List ι} {index : Nat}
    {entry : ι} (hmet : bisect standing entries = .met index entry) :
    entry ∈ entries ∧ standing entry = .eq :=
  bisectFrom_met hmet

theorem bisect_met_at {standing : ι → Ordering} {entries : List ι} {index : Nat}
    {entry : ι} (hmet : bisect standing entries = .met index entry) :
    entries[index]? = some entry :=
  (bisectFrom_met_at hmet).2

theorem bisect_gap_le {standing : ι → Ordering} {entries : List ι} {index : Nat}
    (hgap : bisect standing entries = .gap index) : index ≤ entries.length := by
  simpa using (bisectFrom_gap_within hgap).2

theorem bisect_gap {standing : ι → Ordering} {entries : List ι} {index : Nat}
    (hgraded : Graded standing entries)
    (hgap : bisect standing entries = .gap index) : Parted standing index entries :=
  bisectFrom_gap hgraded hgap

/-- A test that an entry passes or fails meets none of them. -/
theorem bisect_partition (passes : ι → Bool) (entries : List ι) :
    bisect (fun entry => if passes entry then .lt else .gt) entries =
      .gap (partitionPoint passes entries) := by
  cases hspot : bisect (fun entry => if passes entry then .lt else .gt) entries with
  | met index entry =>
      have hstanding := (bisect_met hspot).2
      split at hstanding <;> contradiction
  | gap index => simp only [partitionPoint, hspot]

theorem partitionPoint_le (passes : ι → Bool) (entries : List ι) :
    partitionPoint passes entries ≤ entries.length :=
  bisect_gap_le (bisect_partition passes entries)

/-- Where all that pass come before all that fail, the entries before the partition
point are those that pass. -/
theorem take_partitionPoint {passes : ι → Bool} {entries : List ι}
    (hsorted : entries.Pairwise fun left right => passes right = true → passes left = true) :
    entries.take (partitionPoint passes entries) = entries.filter passes := by
  have hgraded : Graded (fun entry => if passes entry then .lt else .gt) entries := by
    refine hsorted.imp ?_
    intro left right hpasses
    cases hleft : passes left <;> cases hright : passes right <;> simp_all
  obtain ⟨hbelow, habove⟩ := bisect_gap hgraded (bisect_partition passes entries)
  generalize partitionPoint passes entries = index at hbelow habove
  have hpass : (entries.take index).filter passes = entries.take index := by
    apply List.filter_eq_self.mpr
    intro entry hentry
    cases hpasses : passes entry with
    | true => rfl
    | false => simpa [hpasses] using hbelow entry hentry
  have hfail : (entries.drop index).filter passes = [] := by
    apply List.filter_eq_nil_iff.mpr
    intro entry hentry hpasses
    simpa [hpasses] using habove entry hentry
  calc
    entries.take index =
        (entries.take index).filter passes ++ (entries.drop index).filter passes := by
      rw [hpass, hfail, List.append_nil]
    _ = (entries.take index ++ entries.drop index).filter passes :=
      (List.filter_append _ _).symm
    _ = entries.filter passes := by rw [List.take_append_drop]

end Containment
