import Containment.Proofs.Order.Ascent
import Containment.Proofs.Trie.Growth

namespace Containment.Trie

variable {α : Type} {trie : Trie α} {order : Order α}

/-! A trie that is sorted under an order: siblings ascend, and children stand over
their parents. -/

structure Sorted (order : Order α) (trie : Trie α) : Prop where
  siblings : ∀ (id : Nat) node, trie.node id = .ok node →
    order.Ascends (node.branches.map Branch.key)
  above : ∀ (id : Nat) node key branch, trie.node id = .ok node →
    node.key? = some key → branch ∈ node.branches → order key branch.key = .lt

theorem sorted_empty : Sorted order (Trie.empty : Trie α) where
  siblings := by
    intro id node hnode
    obtain rfl : id = root := Nat.lt_one_iff.mp (lt_size_of_node hnode)
    cases hnode
    exact Order.ascends_nil
  above := by
    intro id node key branch hnode hkey
    obtain rfl : id = root := Nat.lt_one_iff.mp (lt_size_of_node hnode)
    cases hnode
    contradiction

theorem Sorted.marked (hsorted : Sorted order trie) {id : Nat} :
    Sorted order (trie.marked id) where
  siblings := by
    intro other later hlater
    obtain ⟨node, hnode, rfl⟩ := exists_of_node_marked hlater
    exact hsorted.siblings other node hnode
  above := by
    intro other later key branch hlater hkey hbranch
    obtain ⟨node, hnode, rfl⟩ := exists_of_node_marked hlater
    exact hsorted.above other node key branch hnode hkey hbranch

private theorem insertIdx_eq_append {ι : Type} {entries : List ι} {position : Nat}
    (entry : ι) (hposition : position ≤ entries.length) :
    entries.insertIdx position entry =
      entries.take position ++ entry :: entries.drop position := by
  induction entries generalizing position with
  | nil =>
      obtain rfl := Nat.le_zero.mp hposition
      rfl
  | cons first rest induction =>
      cases position with
      | zero => rfl
      | succ position =>
          rw [List.insertIdx_succ_cons, induction (Nat.le_of_succ_le_succ hposition)]
          rfl

section Locate

variable {node : Node α} {key : α}

theorem child_of_no_branch {id : Nat} (hnode : trie.node id = .ok node)
    (hnone : ∀ branch ∈ node.branches, order branch.key key ≠ .eq) :
    trie.child order id key = .ok none := by
  have hspot : ∃ position, node.locate order key = .gap position := by
    cases hspot : node.locate order key with
    | gap position => exact ⟨position, rfl⟩
    | met index branch =>
        obtain ⟨hbranch, heq⟩ := locate_met hspot
        exact absurd heq (hnone branch hbranch)
  obtain ⟨position, hspot⟩ := hspot
  simp only [child, hnode, Except.ok_bind, hspot]
  rfl

variable [Std.TransCmp order]

private theorem graded_of_ascends
    (hascends : order.Ascends (node.branches.map Branch.key)) (key : α) :
    Graded (fun branch => order branch.key key) node.branches := by
  rw [Order.Ascends, List.pairwise_map] at hascends
  refine hascends.imp ?_
  intro left right hlt
  constructor
  · intro hgt
    exact Std.OrientedCmp.gt_of_lt
      (Std.TransCmp.lt_trans (Std.OrientedCmp.lt_of_gt hgt) hlt)
  · exact Std.TransCmp.lt_trans hlt

/-- The place for a key is between the lesser and the greater keys. -/
theorem locate_gap {position : Nat}
    (hascends : order.Ascends (node.branches.map Branch.key))
    (hgap : node.locate order key = .gap position) :
    Parted (fun branch => order branch.key key) position node.branches :=
  bisect_gap (graded_of_ascends hascends key) hgap

theorem locate_of_branch {branch : Branch α}
    (hascends : order.Ascends (node.branches.map Branch.key))
    (hbranch : branch ∈ node.branches) (heq : order branch.key key = .eq) :
    ∃ index, node.locate order key = .met index branch := by
  cases hspot : node.locate order key with
  | gap position => exact absurd heq ((locate_gap hascends hspot).standing_ne_eq hbranch)
  | met index found =>
      obtain ⟨hfound, hequivalent⟩ := locate_met hspot
      obtain rfl : found = branch := hascends.entry_unique hfound hbranch
        (Std.TransCmp.eq_trans hequivalent (Std.OrientedCmp.eq_symm heq))
      exact ⟨index, rfl⟩

theorem child_of_branch {id : Nat} {branch : Branch α} (hnode : trie.node id = .ok node)
    (hascends : order.Ascends (node.branches.map Branch.key))
    (hbranch : branch ∈ node.branches) (heq : order branch.key key = .eq) :
    trie.child order id key = .ok (some branch.child) := by
  obtain ⟨index, hspot⟩ := locate_of_branch hascends hbranch heq
  simp only [child, hnode, Except.ok_bind, hspot]
  rfl

end Locate

/-! Paths of a sorted trie ascend, and no two of them agree. -/

section Paths

variable {start finish : Nat} {keys : List α} {first : Node α}

theorem Sorted.leads_ascends [Std.TransCmp order] (hshaped : trie.Shaped)
    (hsorted : Sorted order trie)
    (hleads : trie.Leads start keys finish) (hfirst : trie.node start = .ok first) :
    order.Ascends keys ∧ ∀ key, first.key? = some key → order.Ascends (key :: keys) := by
  induction hleads generalizing first with
  | here => exact ⟨Order.ascends_nil, fun _ _ => Order.ascends_singleton _⟩
  | down hnode hbranch _ induction =>
      obtain rfl := node_unique hnode hfirst
      obtain ⟨child, hchild, horigin⟩ := hshaped.linked _ _ _ hnode hbranch
      have hascends := (induction hchild).2 _ (by rw [Node.key?, horigin]; rfl)
      exact ⟨hascends, fun key hkey =>
        hascends.cons_of_lt (hsorted.above _ _ key _ hnode hkey hbranch)⟩

theorem Sorted.path_ascends [Std.TransCmp order] (hshaped : trie.Shaped)
    (hsorted : Sorted order trie) (hleads : trie.Leads root keys finish) :
    order.Ascends keys := by
  obtain ⟨first, hfirst⟩ := hleads.start_node
  exact (hsorted.leads_ascends hshaped hleads hfirst).1

theorem Sorted.leads_agree_unique [Std.TransCmp order] (hsorted : Sorted order trie)
    {other : Nat} {otherKeys : List α}
    (hleft : trie.Leads start keys finish) (hright : trie.Leads start otherKeys other)
    (hagree : order.Agree keys otherKeys) : keys = otherKeys ∧ finish = other := by
  induction hleft generalizing otherKeys with
  | here =>
      cases hagree
      cases hright
      exact ⟨rfl, rfl⟩
  | down hnode hbranch _ induction =>
      cases hright with
      | here => cases hagree
      | down hotherNode hotherBranch hotherRest =>
          obtain rfl := node_unique hnode hotherNode
          obtain ⟨heq, hagreeRest⟩ := Order.agree_cons.mp hagree
          obtain rfl := (hsorted.siblings _ _ hnode).entry_unique hbranch hotherBranch heq
          obtain ⟨rfl, rfl⟩ := induction hotherRest hagreeRest
          exact ⟨rfl, rfl⟩

theorem Sorted.follow_of_leads [Std.TransCmp order] (hsorted : Sorted order trie)
    {path : List α} (hleads : trie.Leads start keys finish)
    (hagree : order.Agree keys path) :
    trie.follow order start path = .ok (some finish) := by
  induction hleads generalizing path with
  | here =>
      cases hagree
      rfl
  | down hnode hbranch _ induction =>
      cases hagree with
      | cons heq hrest =>
          have hchild := child_of_branch hnode (hsorted.siblings _ _ hnode) hbranch heq
          simp only [follow, hchild, Except.ok_bind]
          exact induction hrest

theorem Sorted.follow_of_not_leads [Std.TransCmp order] (hshaped : trie.Shaped)
    (hsorted : Sorted order trie) {path : List α} (hfirst : trie.node start = .ok first)
    (hnone : ¬ ∃ keys finish, trie.Leads start keys finish ∧ order.Agree keys path) :
    trie.follow order start path = .ok none := by
  induction path generalizing start first with
  | nil => exact absurd ⟨[], start, .here hfirst, Order.agree_nil⟩ hnone
  | cons key rest induction =>
      by_cases hmet : ∃ branch ∈ first.branches, order branch.key key = .eq
      · obtain ⟨branch, hbranch, heq⟩ := hmet
        obtain ⟨child, hchild, _⟩ := hshaped.linked start first branch hfirst hbranch
        have hfound := child_of_branch hfirst (hsorted.siblings _ _ hfirst) hbranch heq
        simp only [follow, hfound, Except.ok_bind]
        refine induction hchild ?_
        intro hbelow
        obtain ⟨keys, finish, hleads, hagree⟩ := hbelow
        exact hnone ⟨branch.key :: keys, finish, .down hfirst hbranch hleads,
          Order.agree_cons.mpr ⟨heq, hagree⟩⟩
      · have hunmet : ∀ branch ∈ first.branches, order branch.key key ≠ .eq :=
          fun branch hbranch heq => hmet ⟨branch, hbranch, heq⟩
        simp only [follow, child_of_no_branch hfirst hunmet, Except.ok_bind]
        rfl

theorem Sorted.findPath_eq_some_iff [Std.TransCmp order] (hshaped : trie.Shaped)
    (hsorted : Sorted order trie) {path : List α} :
    trie.findPath order path = .ok (some finish) ↔
      ∃ keys, trie.Leads root keys finish ∧ order.Agree keys path := by
  constructor
  · intro hfound
    obtain ⟨node, hroot, _⟩ := hshaped.rooted
    by_cases hsome : ∃ keys other, trie.Leads root keys other ∧ order.Agree keys path
    · obtain ⟨keys, other, hleads, hagree⟩ := hsome
      rw [findPath, hsorted.follow_of_leads hleads hagree] at hfound
      cases hfound
      exact ⟨keys, hleads, hagree⟩
    · rw [findPath, hsorted.follow_of_not_leads hshaped hroot hsome] at hfound
      cases hfound
  · intro hfound
    obtain ⟨keys, hleads, hagree⟩ := hfound
    exact hsorted.follow_of_leads hleads hagree

theorem Sorted.findPath_eq_none_iff [Std.TransCmp order] (hshaped : trie.Shaped)
    (hsorted : Sorted order trie) {path : List α} :
    trie.findPath order path = .ok none ↔
      ¬ ∃ keys finish, trie.Leads root keys finish ∧ order.Agree keys path := by
  constructor
  · intro hnone hsome
    obtain ⟨keys, finish, hleads, hagree⟩ := hsome
    rw [findPath, hsorted.follow_of_leads hleads hagree] at hnone
    cases hnone
  · obtain ⟨node, hroot, _⟩ := hshaped.rooted
    exact hsorted.follow_of_not_leads hshaped hroot

theorem Sorted.exists_findPath [Std.TransCmp order] (hshaped : trie.Shaped)
    (hsorted : Sorted order trie) (path : List α) :
    ∃ found, trie.findPath order path = .ok found := by
  by_cases hsome : ∃ keys finish, trie.Leads root keys finish ∧ order.Agree keys path
  · obtain ⟨keys, finish, hleads, hagree⟩ := hsome
    exact ⟨some finish, (hsorted.findPath_eq_some_iff hshaped).mpr ⟨keys, hleads, hagree⟩⟩
  · exact ⟨none, (hsorted.findPath_eq_none_iff hshaped).mpr hsome⟩

end Paths

/-! Insertion keeps a trie sorted. -/

section Insertion

variable {parent position : Nat} {owner : Node α} {key : α}

theorem grafted_eq (hposition : position ≤ owner.branches.length) (child : NodeId) :
    grafted owner position key child =
      { owner with
        branches := owner.branches.take position ++ { key, child } ::
          owner.branches.drop position } := by
  rw [grafted, insertIdx_eq_append _ hposition]

theorem grafted_ascends [Std.TransCmp order] (child : NodeId)
    (hascends : order.Ascends (owner.branches.map Branch.key))
    (hgap : owner.locate order key = .gap position) :
    order.Ascends ((grafted owner position key child).branches.map Branch.key) := by
  obtain ⟨hbelow, habove⟩ := locate_gap hascends hgap
  rw [Order.Ascends, List.pairwise_map] at hascends ⊢
  rw [grafted_eq (locate_gap_le hgap), List.pairwise_append, List.pairwise_cons]
  rw [← List.take_append_drop position owner.branches, List.pairwise_append] at hascends
  obtain ⟨hfront, hback, hacross⟩ := hascends
  refine ⟨hfront, ⟨fun branch hbranch => Std.OrientedCmp.lt_of_gt (habove branch hbranch),
    hback⟩, ?_⟩
  intro left hleft right hright
  rcases List.mem_cons.mp hright with rfl | hlater
  · exact hbelow left hleft
  · exact hacross left hleft right hlater

theorem Sorted.attach [Std.TransCmp order] (hsorted : Sorted order trie)
    (howner : trie.node parent = .ok owner)
    (hgap : owner.locate order key = .gap position)
    (habove : ∀ above, owner.key? = some above → order above key = .lt) :
    Sorted order (trie.attach parent owner position key) where
  siblings := by
    intro id later hlater
    rcases node_attach_cases howner hlater with ⟨_, rfl⟩ | ⟨_, rfl⟩ | ⟨_, hnode⟩
    · exact Order.ascends_nil
    · exact grafted_ascends _ (hsorted.siblings parent owner howner) hgap
    · exact hsorted.siblings id later hnode
  above := by
    intro id later upper branch hlater hupper hbranch
    rcases node_attach_cases howner hlater with ⟨_, rfl⟩ | ⟨_, rfl⟩ | ⟨_, hnode⟩
    · cases hbranch
    · rcases (List.mem_insertIdx (locate_gap_le hgap)).mp hbranch with rfl | hmem
      · exact habove upper hupper
      · exact hsorted.above parent owner upper branch howner hupper hmem
    · exact hsorted.above id later upper branch hnode hupper hbranch

/-- A key above that of the parent is found or made as a branch of the parent. -/
theorem Sorted.childOrCreate [Std.TransCmp order] (hshaped : trie.Shaped)
    (hsorted : Sorted order trie) (howner : trie.node parent = .ok owner)
    (habove : ∀ above, owner.key? = some above → order above key = .lt) :
    ∃ arrival grown later branch child,
      trie.childOrCreate order parent key = (.ok arrival, grown) ∧
      Sorted order grown ∧ grown.node parent = .ok later ∧ branch ∈ later.branches ∧
      branch.child = arrival.node ∧ order branch.key key = .eq ∧
      grown.node arrival.node = .ok child ∧ child.key? = some branch.key := by
  rcases childOrCreate_cases order key howner with
    ⟨branch, hbranch, heq, hresult⟩ | ⟨position, hgap, hlt, hresult⟩ |
      ⟨_, above, _, hkey, hnot, _⟩
  · obtain ⟨child, hchild, horigin⟩ := hshaped.linked parent owner branch howner hbranch
    refine ⟨_, trie, owner, branch, child, hresult, hsorted, howner, hbranch, rfl, heq,
      hchild, ?_⟩
    rw [Node.key?, horigin]
    rfl
  · refine ⟨_, _, _, { key, child := trie.nodes.size }, owner.below parent key, hresult,
      hsorted.attach howner hgap hlt, node_attach_parent howner, ?_, rfl,
      Std.ReflCmp.compare_self, node_attach_fresh, rfl⟩
    exact (List.mem_insertIdx (locate_gap_le hgap)).mpr (Or.inl rfl)
  · exact absurd (habove above hkey) hnot

/-- An ascending path below a node that its first key stands over is followed to
its end; what is missing is made on the way. -/
theorem Sorted.extend [Std.TransCmp order] (hshaped : trie.Shaped)
    (hsorted : Sorted order trie) {start : Nat} {first : Node α} {keys : List α}
    (hstart : trie.node start = .ok first) (hascends : order.Ascends keys)
    (habove : ∀ above, first.key? = some above → order.Ascends (above :: keys)) :
    ∃ reached grown actual, trie.extend order start keys = (.ok reached, grown) ∧
      Sorted order grown ∧ grown.Leads start actual reached.node ∧
      order.Agree actual keys := by
  induction keys generalizing trie start first with
  | nil => exact ⟨_, trie, [], rfl, hsorted, .here hstart, Order.agree_nil⟩
  | cons key rest induction =>
      obtain ⟨arrival, grown, later, branch, child, hstep, hgrown, hlater, hbranch, hends,
        heq, hchild, hkey⟩ := hsorted.childOrCreate hshaped hstart
          fun above hfirst => (habove above hfirst).head_lt List.mem_cons_self
      have hgrownShaped : grown.Shaped := by
        have hshapedStep := (hshaped.childOrCreate order key hstart).1
        rwa [hstep] at hshapedStep
      have hbelow : order.Ascends (branch.key :: rest) :=
        hascends.of_agree (Order.agree_cons.mpr
          ⟨Std.OrientedCmp.eq_symm heq, Order.Agree.refl rest⟩)
      obtain ⟨reached, final, actual, hextend, hfinal, hleads, hagree⟩ :=
        induction hgrownShaped hgrown hchild hbelow.tail (by
          intro above hsome
          rw [hkey] at hsome
          cases hsome
          exact hbelow)
      obtain ⟨_, hgrows, _⟩ := hgrownShaped.extend order rest hchild
      rw [hextend] at hgrows
      obtain ⟨last, hlast, hkept⟩ := hgrows.kept start later hlater
      refine ⟨{ reached with created := reached.created + arrival.created.toNat }, final,
        branch.key :: actual, ?_, hfinal, ?_, Order.agree_cons.mpr ⟨heq, hagree⟩⟩
      · rw [extend_cons, hstep]
        simp only [hextend]
        rfl
      · rw [← hends] at hleads
        exact .down hlast (hkept.branches_sublist.subset hbranch) hleads

end Insertion

end Containment.Trie
