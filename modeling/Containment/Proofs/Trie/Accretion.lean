import Containment.Proofs.Trie.Routes

namespace Containment.Trie

variable {α : Type} {trie older middle newer : Trie α} {order : Order α}

/-! What a node is for good: its place, its key and its depth. Branches may be added
to it, and it may be marked, but a mark is never taken away. -/

structure Endures (node later : Node α) : Prop where
  key_eq : later.key? = node.key?
  parent_eq : later.parent? = node.parent?
  depth_eq : later.depth = node.depth
  marked : node.terminal = true → later.terminal = true

theorem Endures.refl (node : Node α) : Endures node node :=
  ⟨rfl, rfl, rfl, id⟩

theorem Endures.trans {node between later : Node α} (hfirst : Endures node between)
    (hsecond : Endures between later) : Endures node later where
  key_eq := hsecond.key_eq.trans hfirst.key_eq
  parent_eq := hsecond.parent_eq.trans hfirst.parent_eq
  depth_eq := hsecond.depth_eq.trans hfirst.depth_eq
  marked := fun hterminal => hsecond.marked (hfirst.marked hterminal)

theorem Kept.endures {node later : Node α} (hkept : Kept node later) : Endures node later where
  key_eq := congrArg (Option.map Origin.key) hkept.origin_eq
  parent_eq := congrArg (Option.map Origin.parent) hkept.origin_eq
  depth_eq := hkept.depth_eq
  marked := hkept.terminal_eq.trans

/-- Every node is still there under its number. -/
def NodesEndure (older newer : Trie α) : Prop :=
  ∀ (id : Nat) node, older.node id = .ok node →
    ∃ later, newer.node id = .ok later ∧ Endures node later

namespace NodesEndure

theorem refl (trie : Trie α) : NodesEndure trie trie :=
  fun _ node hnode => ⟨node, hnode, Endures.refl node⟩

theorem trans (hfirst : NodesEndure older middle) (hsecond : NodesEndure middle newer) :
    NodesEndure older newer := by
  intro id node hnode
  obtain ⟨between, hbetween, hendures⟩ := hfirst id node hnode
  obtain ⟨later, hlater, henduresLater⟩ := hsecond id between hbetween
  exact ⟨later, hlater, hendures.trans henduresLater⟩

theorem marked (trie : Trie α) (id : NodeId) : NodesEndure trie (trie.marked id) := by
  intro other node hnode
  refine ⟨_, node_marked hnode, rfl, rfl, rfl, ?_⟩
  intro hterminal
  simp [hterminal]

end NodesEndure

theorem Grows.nodesEndure (hgrows : Grows older newer) : NodesEndure older newer := by
  intro id node hnode
  obtain ⟨later, hlater, hkept⟩ := hgrows.kept id node hnode
  exact ⟨later, hlater, hkept.endures⟩

/-- An insertion makes what is missing of its path and at most marks a node. -/
theorem Shaped.insertPath_snd_cases (hshaped : trie.Shaped) (order : Order α)
    (path : List α) :
    (trie.insertPath order path).2 = (trie.extend order root path).2 ∨
      ∃ id, (trie.insertPath order path).2 = (trie.extend order root path).2.marked id := by
  rcases hshaped.insertPath_cases order path with ⟨rfl, hresult⟩ | ⟨_, _, hextend, hresult⟩ |
    ⟨_, _, _, hextend, _, _, ⟨_, hresult⟩ | ⟨_, hresult⟩⟩
  · exact Or.inl rfl
  · rw [hresult, hextend]
    exact Or.inl rfl
  · rw [hresult, hextend]
    exact Or.inl rfl
  · rw [hresult, hextend]
    exact Or.inr ⟨_, rfl⟩

/-- Whatever the order, and whether or not it breaks off, an insertion leaves every node
in its place. -/
theorem Shaped.nodesEndure_insertPath (hshaped : trie.Shaped) (order : Order α)
    (path : List α) : NodesEndure trie (trie.insertPath order path).2 := by
  obtain ⟨_, hroot, _⟩ := hshaped.rooted
  obtain ⟨_, hgrows, _⟩ := hshaped.extend order path hroot
  rcases hshaped.insertPath_snd_cases order path with heq | ⟨id, heq⟩
  · rw [heq]
    exact hgrows.nodesEndure
  · rw [heq]
    exact hgrows.nodesEndure.trans (.marked _ id)

/-! What an insertion adds to the stored sequences: its own, if that was not stored
before, and the rest element by element as they were. -/

section Stored

variable [Std.TransCmp order] {path actual : List α} {insertion : Insertion}

theorem Sorted.storedBelow_nodup (hshaped : trie.Shaped) (hsorted : Sorted order trie) :
    (trie.storedBelow root).Nodup := by
  refine (hsorted.storedBelow_pairwise hshaped hshaped.size_pos).imp ?_
  rintro left right hdiffer rfl
  exact hdiffer (Order.Agree.refl left)

/-- The sequence was stored before exactly when the insertion reports nothing new. -/
theorem Inserts.stores_actual_iff (hinserts : Inserts order older newer path actual insertion) :
    older.Stores actual ↔ insertion.inserted = false := by
  rw [← Bool.not_eq_true, hinserts.inserted_iff, not_not]
  constructor
  · intro hstores
    exact ⟨actual, hstores, hinserts.agree⟩
  · rintro ⟨stored, hstores, hagree⟩
    have hkept : newer.Stores stored := (hinserts.stores_iff stored).mpr (Or.inl hstores)
    obtain ⟨id, _, hleads, _⟩ := hkept
    obtain ⟨rfl, _⟩ := hinserts.sorted.leads_agree_unique hleads hinserts.leads
      (hagree.trans hinserts.agree.symm)
    exact hstores

theorem Inserts.storedBelow_perm (hshaped : older.Shaped) (hsorted : Sorted order older)
    (hinserts : Inserts order older newer path actual insertion) :
    (newer.storedBelow root).Perm
      (older.storedBelow root ++ if insertion.inserted then [actual] else []) := by
  have hactual : actual ∈ older.storedBelow root ↔ insertion.inserted = false :=
    hshaped.mem_storedBelow_root_iff.trans hinserts.stores_actual_iff
  have hnodup := hsorted.storedBelow_nodup hshaped
  apply (List.perm_ext_iff_of_nodup
    (hinserts.sorted.storedBelow_nodup hinserts.shaped) ?_).mpr
  · intro keys
    rw [hinserts.shaped.mem_storedBelow_root_iff, hinserts.stores_iff, List.mem_append,
      hshaped.mem_storedBelow_root_iff]
    cases hinserted : insertion.inserted with
    | true => simp
    | false =>
        have hstored := hinserts.stores_actual_iff.mpr hinserted
        simp only [Bool.false_eq_true, if_false, List.not_mem_nil, or_false]
        exact or_iff_left_of_imp fun heq => heq ▸ hstored
  · cases hinserted : insertion.inserted with
    | true =>
        rw [hinserted] at hactual
        refine hnodup.append (List.nodup_singleton actual) ?_
        simp [hactual]
    | false => simpa using hnodup

end Stored

end Containment.Trie
