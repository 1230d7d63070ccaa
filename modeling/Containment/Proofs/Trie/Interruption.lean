import Containment.Proofs.Trie.Insertion
import Containment.Proofs.Trie.SubsetSearch
import Containment.Proofs.Trie.SupersetSearch

namespace Containment

variable {α : Type} {order : Order α}

/-- A sequence that does not ascend has a first place where it fails to. -/
theorem Order.exists_descent [Std.TransCmp order] {path : List α}
    (hnot : ¬ order.Ascends path) :
    ∃ front above key rest, path = front ++ above :: key :: rest ∧
      order.Ascends (front ++ [above]) ∧ order above key ≠ .lt := by
  induction path using List.reverseRecOn with
  | nil => exact absurd ascends_nil hnot
  | append_singleton earlier last induction =>
      by_cases hascends : order.Ascends earlier
      · cases earlier using List.reverseRecOn with
        | nil => exact absurd (ascends_singleton last) hnot
        | append_singleton front above =>
            refine ⟨front, above, last, [], by simp, hascends, ?_⟩
            exact fun hlt => hnot (hascends.snoc hlt)
      · obtain ⟨front, above, key, rest, rfl, hfront, hdescent⟩ := induction hascends
        exact ⟨front, above, key, rest ++ [last], by simp, hfront, hdescent⟩

namespace Trie

variable {trie older newer : Trie α}

/-! An insertion breaks off at the first key that is not above the one before it. No
branch can take such a key in: the keys of the branches are above that of their node. -/

section Descent

variable {start parent : Nat} {owner : Node α} {front back : List α} {key : α}
  {reached : Reached} {middle : Trie α}

theorem insertPath_of_extend_error {path : List α} {fault : Fault} {grown : Trie α}
    (hextend : trie.extend order root path = (.error fault, grown)) :
    trie.insertPath order path = (.error fault, grown) := by
  cases path with
  | nil => cases hextend
  | cons key rest => simp only [insertPath, hextend]

variable [Std.TransCmp order]

theorem Sorted.childOrCreate_of_not_lt (hsorted : Sorted order trie)
    (howner : trie.node parent = .ok owner) {above : α} (habove : owner.key? = some above)
    (hnot : order above key ≠ .lt) :
    trie.childOrCreate order parent key = (.error (.notAscending (order above key)), trie) := by
  rcases childOrCreate_cases order key howner with
    ⟨branch, hbranch, heq, _⟩ | ⟨_, _, hlt, _⟩ | ⟨_, other, _, hother, _, hresult⟩
  · have hover := hsorted.above parent owner above branch howner habove hbranch
    exact absurd (Std.TransCmp.lt_of_lt_of_eq hover heq) hnot
  · exact absurd (hlt above habove) hnot
  · rw [habove] at hother
    cases hother
    exact hresult

/-- The node at the end of a path has a key that is equivalent to the last of it. -/
private theorem Reaches.exists_key {path actual : List α} {above : α}
    (hreaches : Reaches order older newer (path ++ [above]) actual reached) :
    ∃ node last, newer.node reached.node = .ok node ∧ node.key? = some last ∧
      order last above = .eq := by
  obtain ⟨first, last, rfl, _, hlast⟩ := hreaches.agree.symm.exists_append
  cases hlast with
  | cons heq hnil =>
      cases hnil
      obtain ⟨_, node, _, hnode, horigin⟩ := hreaches.leads.exists_origin hreaches.shaped
      exact ⟨node, _, hnode, by rw [Node.key?, horigin]; rfl, Std.OrientedCmp.eq_symm heq⟩

theorem Sorted.insertPath_of_descent (hshaped : trie.Shaped) (hsorted : Sorted order trie)
    {above : α} {rest : List α} (hfront : order.Ascends (front ++ [above]))
    (hdescent : order above key ≠ .lt) :
    trie.insertPath order (front ++ above :: key :: rest) =
      (.error (.notAscending (order above key)),
        (trie.extend order root (front ++ [above])).2) := by
  obtain ⟨reached, grown, actual, hextend, hreaches⟩ :=
    hsorted.extend_reaches hshaped (List.append_ne_nil_of_right_ne_nil _ (by simp)) hfront
  obtain ⟨owner, last, howner, hlast, heq⟩ := hreaches.exists_key
  have hstanding : order last key = order above key := Std.TransCmp.congr_left heq
  have hstep : grown.childOrCreate order reached.node key =
      (.error (.notAscending (order above key)), grown) := by
    rw [← hstanding] at hdescent ⊢
    exact hreaches.sorted.childOrCreate_of_not_lt howner hlast hdescent
  apply insertPath_of_extend_error
  rw [List.append_cons, extend_append hextend, extend_cons, hstep, hextend]
  rfl

theorem Sorted.insertPath_eq_ok_iff (hshaped : trie.Shaped) (hsorted : Sorted order trie)
    (path : List α) :
    (∃ insertion, (trie.insertPath order path).1 = .ok insertion) ↔
      path ≠ [] ∧ order.ascending path = true := by
  rw [Order.ascending_eq_true_iff]
  constructor
  · rintro ⟨insertion, hinsertion⟩
    refine ⟨?_, ?_⟩
    · rintro rfl
      cases hinsertion
    · by_contra hnot
      obtain ⟨front, above, key, rest, rfl, hfront, hdescent⟩ := Order.exists_descent hnot
      rw [hsorted.insertPath_of_descent hshaped hfront hdescent] at hinsertion
      cases hinsertion
  · rintro ⟨hne, hascends⟩
    obtain ⟨insertion, newer, _, hinsert, _⟩ := hsorted.insertPath hshaped hne hascends
    exact ⟨insertion, by rw [hinsert]⟩

end Descent

/-! Nothing that is asked of a trie tells it from one that stores the same sequences. -/

section Stored

variable [Std.TransCmp order] (holder : older.Shaped) (holderSorted : Sorted order older)
  (hnewer : newer.Shaped) (hnewerSorted : Sorted order newer)
  (hstores : ∀ keys, newer.Stores keys ↔ older.Stores keys)
include holder holderSorted hnewer hnewerSorted hstores

theorem storedBelow_perm_of_stores :
    (newer.storedBelow root).Perm (older.storedBelow root) := by
  apply (List.perm_ext_iff_of_nodup (hnewerSorted.storedBelow_nodup hnewer)
    (holderSorted.storedBelow_nodup holder)).mpr
  intro keys
  rw [hnewer.mem_storedBelow_root_iff, holder.mem_storedBelow_root_iff, hstores]

theorem holds_of_stores (path : List α) :
    ∃ held, older.holds order path = .ok held ∧ newer.holds order path = .ok held := by
  obtain ⟨held, hheld, hiff⟩ := holderSorted.holds_iff holder path
  obtain ⟨heldLater, hheldLater, hiffLater⟩ := hnewerSorted.holds_iff hnewer path
  have heq : heldLater = held := by
    rw [Bool.eq_iff_iff, hiff, hiffLater]
    simp only [hstores]
  exact ⟨held, hheld, heq ▸ hheldLater⟩

theorem properSubsets_of_stores {query : Canonical α} (hquery : order.Ascends query.elements) :
    ∃ findings findingsLater, older.properSubsets order query = .ok findings ∧
      newer.properSubsets order query = .ok findingsLater ∧
      findingsLater.sets.Perm findings.sets := by
  obtain ⟨findings, hfindings, hperm⟩ := holderSorted.properSubsets_perm holder hquery
  obtain ⟨findingsLater, hfindingsLater, hpermLater⟩ :=
    hnewerSorted.properSubsets_perm hnewer hquery
  have hstored := storedBelow_perm_of_stores holder holderSorted hnewer hnewerSorted hstores
  exact ⟨findings, findingsLater, hfindings, hfindingsLater,
    hpermLater.trans ((hstored.filter _).trans hperm.symm)⟩

theorem properSupersets_of_stores {query : Canonical α}
    (hquery : order.Ascends query.elements) :
    ∃ findings findingsLater, older.properSupersets order query = .ok findings ∧
      newer.properSupersets order query = .ok findingsLater ∧
      findingsLater.sets.Perm findings.sets := by
  obtain ⟨findings, hfindings, heq⟩ := holderSorted.properSupersets_eq holder hquery
  obtain ⟨findingsLater, hfindingsLater, heqLater⟩ :=
    hnewerSorted.properSupersets_eq hnewer hquery
  have hstored := storedBelow_perm_of_stores holder holderSorted hnewer hnewerSorted hstores
  refine ⟨findings, findingsLater, hfindings, hfindingsLater, ?_⟩
  rw [heq, heqLater]
  exact hstored.filter _

end Stored

/-! What an insertion leaves that has broken off after the beginning `way` of its path:
the nodes on that way, none of them marked. -/

structure Interrupted (order : Order α) (way : List α) (older newer : Trie α) : Prop where
  audit_eq : newer.audit order = .ok ()
  isTree : newer.IsTree
  nodes : NodesEndure older newer
  /-- The paths that are new are those along the way. -/
  found_iff : ∀ path, (∃ id, newer.findPath order path = .ok (some id)) ↔
    (∃ id, older.findPath order path = .ok (some id)) ∨
      ∃ count, order.Agree path (way.take count)
  terminalAt_eq : ∀ id, newer.terminalAt id = older.terminalAt id
  stored_eq : newer.stored = older.stored
  holds : ∀ path, ∃ held,
    older.holds order path = .ok held ∧ newer.holds order path = .ok held
  subsets : ∀ query : Canonical α, order.Ascends query.elements →
    ∃ findings findingsLater, older.properSubsets order query = .ok findings ∧
      newer.properSubsets order query = .ok findingsLater ∧
      findingsLater.sets.Perm findings.sets
  supersets : ∀ query : Canonical α, order.Ascends query.elements →
    ∃ findings findingsLater, older.properSupersets order query = .ok findings ∧
      newer.properSupersets order query = .ok findingsLater ∧
      findingsLater.sets.Perm findings.sets

section Interrupted

variable [Std.TransCmp order] {way : List α}

theorem Sorted.interrupted (hshaped : trie.Shaped) (hsorted : Sorted order trie)
    (hne : way ≠ []) (hascends : order.Ascends way) :
    Interrupted order way trie (trie.extend order root way).2 := by
  obtain ⟨reached, grown, actual, hextend, hreaches⟩ :=
    hsorted.extend_reaches hshaped hne hascends
  obtain ⟨_, hroot, _⟩ := hshaped.rooted
  obtain ⟨_, hgrows, _⟩ := hshaped.extend order way hroot
  rw [hextend] at hgrows ⊢
  have hstores : ∀ keys, grown.Stores keys ↔ trie.Stores keys := hreaches.stores_iff
  exact
    { audit_eq := hreaches.sorted.audit_eq hreaches.shaped
      isTree := hreaches.shaped.isTree
      nodes := hgrows.nodesEndure
      found_iff := hreaches.found_iff hshaped hsorted hextend
      terminalAt_eq := hgrows.terminalAt_eq
      stored_eq := hreaches.stored_eq
      holds := holds_of_stores hshaped hsorted hreaches.shaped hreaches.sorted hstores
      subsets := fun _ hquery => properSubsets_of_stores hshaped hsorted hreaches.shaped
        hreaches.sorted hstores hquery
      supersets := fun _ hquery => properSupersets_of_stores hshaped hsorted hreaches.shaped
        hreaches.sorted hstores hquery }

end Interrupted

/-! Insertion in full: which paths it takes, what it reports of the others, and what it
leaves of them. -/

structure Guards (order : Order α) (trie : Trie α) : Prop where
  succeeds_iff : ∀ path, (∃ insertion, (trie.insertPath order path).1 = .ok insertion) ↔
    path ≠ [] ∧ order.ascending path = true
  empty : trie.insertPath order [] = (.error .emptyPath, trie)
  /-- The first key that is not above the one before it is reported with that very
  standing, though the keys that are compared are those of the nodes. -/
  descent : ∀ front above key rest, order.ascending (front ++ [above]) = true →
    order above key ≠ .lt →
      trie.insertPath order (front ++ above :: key :: rest) =
          (.error (.notAscending (order above key)),
            (trie.extend order root (front ++ [above])).2) ∧
        Interrupted order (front ++ [above]) trie
          (trie.insertPath order (front ++ above :: key :: rest)).2

theorem Sorted.guards [Std.TransCmp order] (hshaped : trie.Shaped)
    (hsorted : Sorted order trie) : Guards order trie where
  succeeds_iff := hsorted.insertPath_eq_ok_iff hshaped
  empty := rfl
  descent := by
    intro front above key rest hfront hdescent
    rw [Order.ascending_eq_true_iff] at hfront
    have hinsert : trie.insertPath order (front ++ above :: key :: rest) = _ :=
      hsorted.insertPath_of_descent hshaped hfront hdescent
    refine ⟨hinsert, ?_⟩
    rw [hinsert]
    exact hsorted.interrupted hshaped (List.append_ne_nil_of_right_ne_nil _ (by simp)) hfront

/-- Whatever was inserted before, an insertion takes the paths that are not empty and
ascend. It breaks off at the first key of another that does not, and then the trie
answers as if nothing had happened. -/
theorem laid_guards (order : Order α) [Std.TransCmp order] (paths : List (List α)) :
    Guards order (laid order paths) :=
  (laid_sorted order paths).guards (laid_shaped order paths)

/-- The second path breaks off behind a node that it has made, the third at once. -/
def brokenPaths : List (List Int) :=
  [[21, 3, 14], [1, 2, 12, 5], [], [11, 3]]

theorem laid_guards_brokenPaths :
    (laid Order.byLastDigit brokenPaths).nodeCount = 4 ∧
      (laid Order.byLastDigit brokenPaths).stored = 2 ∧
      Order.byLastDigit.ascending [1, 3, 6] = true ∧ Order.byLastDigit 6 (-8) = .gt ∧
      Guards Order.byLastDigit (laid Order.byLastDigit brokenPaths) ∧
      Interrupted Order.byLastDigit [1, 3, 6] (laid Order.byLastDigit brokenPaths)
        ((laid Order.byLastDigit brokenPaths).insertPath Order.byLastDigit
          [1, 3, 6, -8, 7]).2 :=
  have hascending : Order.byLastDigit.ascending [1, 3, 6] = true := by decide +kernel
  have hdescent : Order.byLastDigit 6 (-8) = .gt := by decide +kernel
  have hguards := laid_guards Order.byLastDigit brokenPaths
  ⟨by decide +kernel, by decide +kernel, hascending, hdescent, hguards,
    (hguards.descent [1, 3] 6 (-8) [7] hascending (by rw [hdescent]; decide)).2⟩

end Trie

end Containment
