import Containment.Proofs.Trie.Sorted

namespace Containment.Trie

variable {α : Type} {trie older newer : Trie α} {order : Order α}

/-! The stored sequences: the paths to the terminal nodes. Growing leaves them as
they are, marking a node adds its path. -/

def Stores (trie : Trie α) (keys : List α) : Prop :=
  ∃ (id : Nat) (node : Node α),
    trie.Leads root keys id ∧ trie.node id = .ok node ∧ node.terminal = true

theorem Grows.stores_iff (hgrows : Grows older newer) (holder : older.Shaped)
    (hnewer : newer.Shaped) {keys : List α} :
    newer.Stores keys ↔ older.Stores keys := by
  constructor
  · intro hstored
    obtain ⟨id, later, hleads, hlater, hterminal⟩ := hstored
    have hold : id < older.nodes.size := by
      by_contra hnew
      have hfresh := hgrows.fresh id later hlater (Nat.le_of_not_lt hnew)
      rw [hterminal] at hfresh
      contradiction
    obtain ⟨node, hnode⟩ := exists_node hold
    obtain ⟨found, hfound, hkept⟩ := hgrows.kept id node hnode
    obtain rfl := node_unique hlater hfound
    have holdLeads := hgrows.leads_old holder hnewer hleads hold
    exact ⟨id, node, holdLeads, hnode, hkept.terminal_eq.symm.trans hterminal⟩
  · intro hstored
    obtain ⟨id, node, hleads, hnode, hterminal⟩ := hstored
    obtain ⟨later, hlater, hkept⟩ := hgrows.kept id node hnode
    exact ⟨id, later, hgrows.leads hleads, hlater, hkept.terminal_eq.trans hterminal⟩

theorem stores_marked_iff (hshaped : trie.Shaped) {id : Nat} {path keys : List α}
    (hpath : trie.Leads root path id) :
    (trie.marked id).Stores keys ↔ trie.Stores keys ∨ keys = path := by
  constructor
  · intro hstored
    obtain ⟨other, later, hleads, hlater, hterminal⟩ := hstored
    rw [leads_marked_iff] at hleads
    obtain ⟨node, hnode, rfl⟩ := exists_of_node_marked hlater
    rcases Bool.or_eq_true _ _ ▸ hterminal with hstored | heq
    · exact Or.inl ⟨other, node, hleads, hnode, hstored⟩
    · obtain rfl := eq_of_beq heq
      exact Or.inr (hshaped.leads_unique hleads hpath)
  · intro heither
    rcases heither with ⟨other, node, hleads, hnode, hterminal⟩ | rfl
    · refine ⟨other, _, leads_marked_iff.mpr hleads, node_marked hnode, ?_⟩
      simp [hterminal]
    · obtain ⟨node, hnode⟩ := hpath.finish_node
      refine ⟨id, _, leads_marked_iff.mpr hpath, node_marked hnode, ?_⟩
      simp

theorem not_stores_empty (keys : List α) : ¬ (Trie.empty : Trie α).Stores keys := by
  intro hstored
  obtain ⟨id, node, _, hnode, hterminal⟩ := hstored
  obtain rfl : id = root := Nat.lt_one_iff.mp (lt_size_of_node hnode)
  cases hnode
  contradiction

theorem Sorted.stores_ascends [Std.TransCmp order] (hshaped : trie.Shaped)
    (hsorted : Sorted order trie) {keys : List α} (hstores : trie.Stores keys) :
    order.Ascends keys := by
  obtain ⟨_, _, hleads, _⟩ := hstores
  exact hsorted.path_ascends hshaped hleads

theorem Shaped.stores_ne_nil (hshaped : trie.Shaped) {keys : List α}
    (hstores : trie.Stores keys) : keys ≠ [] := by
  rintro rfl
  obtain ⟨id, node, hleads, hnode, hterminal⟩ := hstores
  cases hleads
  obtain ⟨found, hfound, _, _, hunmarked⟩ := hshaped.rooted
  rw [node_unique hnode hfound, hunmarked] at hterminal
  contradiction

/-- A node on a path is terminal exactly when the path is stored, whichever of the
equivalent elements it was looked for with. -/
theorem Sorted.terminal_iff [Std.TransCmp order] (hsorted : Sorted order trie)
    {id : Nat} {node : Node α} {keys path : List α}
    (hleads : trie.Leads root keys id) (hagree : order.Agree keys path)
    (hnode : trie.node id = .ok node) :
    node.terminal = true ↔ ∃ stored, trie.Stores stored ∧ order.Agree stored path := by
  constructor
  · intro hterminal
    exact ⟨keys, ⟨id, node, hleads, hnode, hterminal⟩, hagree⟩
  · intro hagrees
    obtain ⟨stored, ⟨other, otherNode, hotherLeads, hotherNode, hterminal⟩, hstored⟩ := hagrees
    obtain ⟨-, rfl⟩ := hsorted.leads_agree_unique hleads hotherLeads
      (hagree.trans hstored.symm)
    rwa [node_unique hnode hotherNode]

/-- Whether a path leads to the end of a stored sequence. -/
def holds (trie : Trie α) (order : Order α) (path : List α) : Except Fault Bool := do
  match ← trie.findPath order path with
  | none => return false
  | some id => return (← trie.node id).terminal

theorem Sorted.holds_iff [Std.TransCmp order] (hshaped : trie.Shaped)
    (hsorted : Sorted order trie) (path : List α) :
    ∃ held, trie.holds order path = .ok held ∧
      (held = true ↔ ∃ stored, trie.Stores stored ∧ order.Agree stored path) := by
  by_cases hsome : ∃ keys finish, trie.Leads root keys finish ∧ order.Agree keys path
  · obtain ⟨keys, finish, hleads, hagree⟩ := hsome
    obtain ⟨node, hnode⟩ := hleads.finish_node
    refine ⟨node.terminal, ?_, hsorted.terminal_iff hleads hagree hnode⟩
    unfold holds
    rw [(hsorted.findPath_eq_some_iff hshaped).mpr ⟨keys, hleads, hagree⟩]
    simp only [Except.ok_bind, hnode]
    rfl
  · refine ⟨false, ?_, iff_of_false Bool.false_ne_true ?_⟩
    · unfold holds
      rw [(hsorted.findPath_eq_none_iff hshaped).mpr hsome]
      rfl
    · rintro ⟨stored, ⟨finish, _, hleads, _⟩, hagree⟩
      exact hsome ⟨stored, finish, hleads, hagree⟩

/-! Leaves are ends of stored sequences, but for one node in whose place the next
key of a path is still to come. -/

def Trimmed (trie : Trie α) (focus : Nat) : Prop :=
  ∀ (id : Nat) node, trie.node id = .ok node → node.isLeaf = true →
    id = root ∨ id = focus ∨ node.terminal = true

theorem trimmed_empty (focus : Nat) : Trimmed (Trie.empty : Trie α) focus :=
  fun _ _ hnode _ => Or.inl (Nat.lt_one_iff.mp (lt_size_of_node hnode))

section Trimmed

variable {parent : Nat} {owner : Node α} {key : α}

private theorem not_leaf_of_branch {node : Node α} {branch : Branch α}
    (hbranch : branch ∈ node.branches) : node.isLeaf = false := by
  rw [Node.isLeaf, List.isEmpty_eq_false_iff]
  exact List.ne_nil_of_mem hbranch

theorem Trimmed.childOrCreate {arrival : Arrival} {grown : Trie α}
    (htrimmed : Trimmed trie parent) (howner : trie.node parent = .ok owner)
    (hstep : trie.childOrCreate order parent key = (.ok arrival, grown)) :
    Trimmed grown arrival.node := by
  intro id later hlater hleaf
  rcases childOrCreate_cases order key howner with
    ⟨branch, hbranch, _, hresult⟩ | ⟨position, hgap, _, hresult⟩ |
      ⟨_, _, _, _, _, hresult⟩
  · rw [hstep] at hresult
    cases hresult
    rcases htrimmed id later hlater hleaf with hroot | rfl | hterminal
    · exact Or.inl hroot
    · rw [node_unique hlater howner, not_leaf_of_branch hbranch] at hleaf
      contradiction
    · exact Or.inr (Or.inr hterminal)
  · rw [hstep] at hresult
    cases hresult
    rcases node_attach_cases howner hlater with ⟨rfl, _⟩ | ⟨_, rfl⟩ | ⟨hne, hnode⟩
    · exact Or.inr (Or.inl rfl)
    · rw [not_leaf_of_branch
        ((List.mem_insertIdx (locate_gap_le hgap)).mpr (Or.inl rfl))] at hleaf
      contradiction
    · exact (htrimmed id later hnode hleaf).imp_right fun hor =>
        Or.inr (hor.resolve_left hne)
  · rw [hstep] at hresult
    cases hresult

theorem Trimmed.extend {reached : Reached} {grown : Trie α} {start : Nat}
    {first : Node α} {keys : List α} (hshaped : trie.Shaped)
    (htrimmed : Trimmed trie start) (hstart : trie.node start = .ok first)
    (hextend : trie.extend order start keys = (.ok reached, grown)) :
    Trimmed grown reached.node := by
  induction keys generalizing trie start first reached with
  | nil =>
      cases hextend
      exact htrimmed
  | cons key rest induction =>
      obtain ⟨arrival, middle, found, hstep, hrest, rfl⟩ := extend_cons_eq_ok hextend
      obtain ⟨hmiddle, _, harrival⟩ := hshaped.childOrCreate order key hstart
      rw [hstep] at hmiddle harrival
      obtain ⟨_, node, hnode⟩ := harrival arrival rfl
      have hend : Trimmed grown found.node :=
        induction hmiddle (htrimmed.childOrCreate hstart hstep) hnode hrest
      exact hend

theorem Trimmed.marked {focus : Nat} (htrimmed : Trimmed trie focus) :
    Trimmed (trie.marked focus) root := by
  intro id later hlater hleaf
  obtain ⟨node, hnode, rfl⟩ := exists_of_node_marked hlater
  rcases htrimmed id node hnode hleaf with hroot | rfl | hterminal
  · exact Or.inl hroot
  · exact Or.inr (Or.inr (by simp))
  · exact Or.inr (Or.inr (by simp [hterminal]))

theorem Trimmed.of_terminal {focus : Nat} {node : Node α} (htrimmed : Trimmed trie focus)
    (hnode : trie.node focus = .ok node) (hterminal : node.terminal = true) :
    Trimmed trie root := by
  intro id other hother hleaf
  rcases htrimmed id other hother hleaf with hroot | rfl | hstored
  · exact Or.inl hroot
  · exact Or.inr (Or.inr (by rwa [node_unique hother hnode]))
  · exact Or.inr (Or.inr hstored)

end Trimmed

/-! What inserting an ascending path comes to, before and after its last node is
marked. -/

/-- The path is there under the elements that stand for it in the newer trie. -/
structure Reaches (order : Order α) (older newer : Trie α) (path actual : List α)
    (reached : Reached) : Prop where
  shaped : newer.Shaped
  sorted : Sorted order newer
  agree : order.Agree actual path
  leads : newer.Leads root actual reached.node
  stores_iff : ∀ keys, newer.Stores keys ↔ older.Stores keys
  stored_eq : newer.stored = older.stored
  below_root : reached.node ≠ root
  trimmed : Trimmed older root → Trimmed newer reached.node

/-- The path is stored under the elements that stand for it in the newer trie. -/
structure Inserts (order : Order α) (older newer : Trie α) (path actual : List α)
    (insertion : Insertion) : Prop where
  shaped : newer.Shaped
  sorted : Sorted order newer
  agree : order.Agree actual path
  leads : newer.Leads root actual insertion.node
  stores_iff : ∀ keys, newer.Stores keys ↔ older.Stores keys ∨ keys = actual
  inserted_iff : insertion.inserted = true ↔
    ¬ ∃ stored, older.Stores stored ∧ order.Agree stored path
  stored_eq : newer.stored = older.stored + insertion.inserted.toNat
  trimmed : Trimmed older root → Trimmed newer root

section Insertion

variable {path actual : List α} {reached : Reached} {node : Node α}

theorem Sorted.extend_reaches [Std.TransCmp order] (hshaped : trie.Shaped)
    (hsorted : Sorted order trie) (hne : path ≠ []) (hascends : order.Ascends path) :
    ∃ reached grown actual, trie.extend order root path = (.ok reached, grown) ∧
      Reaches order trie grown path actual reached := by
  obtain ⟨first, hroot, horigin, _⟩ := hshaped.rooted
  obtain ⟨reached, grown, actual, hextend, hgrownSorted, hleads, hagree⟩ :=
    hsorted.extend hshaped hroot hascends (by
      intro above hkey
      rw [Node.key?, horigin] at hkey
      contradiction)
  obtain ⟨hgrown, hgrows, hreached⟩ := hshaped.extend order path hroot
  rw [hextend] at hgrown hgrows hreached
  exact ⟨reached, grown, actual, hextend,
    { shaped := hgrown
      sorted := hgrownSorted
      agree := hagree
      leads := hleads
      stores_iff := fun _ => hgrows.stores_iff hshaped hgrown
      stored_eq := hgrows.stored_eq
      below_root := (hreached reached rfl).1 (Or.inr hne)
      trimmed := fun htrimmed => htrimmed.extend hshaped hroot hextend }⟩

theorem Reaches.terminal_iff [Std.TransCmp order]
    (hreaches : Reaches order older newer path actual reached)
    (hnode : newer.node reached.node = .ok node) :
    node.terminal = true ↔ ∃ stored, older.Stores stored ∧ order.Agree stored path := by
  rw [hreaches.sorted.terminal_iff hreaches.leads hreaches.agree hnode]
  simp only [hreaches.stores_iff]

theorem Reaches.inserts_of_terminal [Std.TransCmp order]
    (hreaches : Reaches order older newer path actual reached)
    (hnode : newer.node reached.node = .ok node) (hterminal : node.terminal = true) :
    Inserts order older newer path actual
      { node := reached.node, inserted := false, created := reached.created } where
  shaped := hreaches.shaped
  sorted := hreaches.sorted
  agree := hreaches.agree
  leads := hreaches.leads
  stores_iff := by
    intro keys
    have hstored : newer.Stores actual := ⟨_, node, hreaches.leads, hnode, hterminal⟩
    rw [← hreaches.stores_iff]
    constructor
    · exact Or.inl
    · exact fun heither => heither.elim (fun hkeys => hkeys) fun heq => heq ▸ hstored
  inserted_iff := by
    rw [← hreaches.terminal_iff hnode, hterminal]
    simp
  stored_eq := hreaches.stored_eq
  trimmed := fun htrimmed => (hreaches.trimmed htrimmed).of_terminal hnode hterminal

theorem Reaches.inserts_marked [Std.TransCmp order]
    (hreaches : Reaches order older newer path actual reached)
    (hnode : newer.node reached.node = .ok node) (hterminal : node.terminal = false) :
    Inserts order older (newer.marked reached.node) path actual
      { node := reached.node, inserted := true, created := reached.created } where
  shaped := hreaches.shaped.marked hreaches.below_root hnode hterminal
  sorted := hreaches.sorted.marked
  agree := hreaches.agree
  leads := leads_marked_iff.mpr hreaches.leads
  stores_iff := by
    intro keys
    rw [stores_marked_iff hreaches.shaped hreaches.leads, hreaches.stores_iff]
  inserted_iff := by
    rw [← hreaches.terminal_iff hnode, hterminal]
    simp
  stored_eq := congrArg (· + 1) hreaches.stored_eq
  trimmed := fun htrimmed => (hreaches.trimmed htrimmed).marked

theorem Sorted.insertPath [Std.TransCmp order] (hshaped : trie.Shaped)
    (hsorted : Sorted order trie) (hne : path ≠ []) (hascends : order.Ascends path) :
    ∃ insertion newer actual, trie.insertPath order path = (.ok insertion, newer) ∧
      Inserts order trie newer path actual insertion := by
  obtain ⟨reached, grown, actual, hextend, hreaches⟩ :=
    hsorted.extend_reaches hshaped hne hascends
  rcases hshaped.insertPath_cases order path with ⟨hnil, _⟩ | ⟨_, _, hfails, _⟩ |
    ⟨_, _, _, hother, hnode, _, ⟨hterminal, hinsert⟩ | ⟨hterminal, hinsert⟩⟩
  · exact absurd hnil hne
  · rw [hextend] at hfails
    cases hfails
  · rw [hextend] at hother
    cases hother
    exact ⟨_, grown, actual, hinsert, hreaches.inserts_of_terminal hnode hterminal⟩
  · rw [hextend] at hother
    cases hother
    exact ⟨_, _, actual, hinsert, hreaches.inserts_marked hnode hterminal⟩

end Insertion

end Containment.Trie
