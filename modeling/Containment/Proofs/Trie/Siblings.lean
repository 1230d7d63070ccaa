import Containment.Proofs.Trie.Insertion
import Containment.Proofs.Trie.Verdict

namespace Containment

variable {α : Type} {order : Order α}

def Branch.isUnder (order : Order α) (key : α) (branch : Branch α) : Bool :=
  order.equivalent branch.key key

@[simp] theorem Branch.isUnder_eq_true {key : α} {branch : Branch α} :
    branch.isUnder order key = true ↔ order branch.key key = .eq :=
  Order.equivalent_eq_true

namespace Trie

variable {trie : Trie α}

/-! Siblings are told apart by their keys: among ascending branches the search by halving
meets what a look at one branch after another would meet. -/

/-- The first branch with an equivalent key. -/
def branchUnder (order : Order α) (key : α) (branches : List (Branch α)) : Option (Branch α) :=
  branches.find? (Branch.isUnder order key)

section Lookup

variable {id : Nat} {node : Node α} {branches : List (Branch α)} {key : α}

theorem of_branchUnder_eq_some {branch : Branch α}
    (hfound : branchUnder order key branches = some branch) :
    branch ∈ branches ∧ order branch.key key = .eq := by
  exact ⟨List.mem_of_find?_eq_some hfound, Branch.isUnder_eq_true.mp (List.find?_some hfound)⟩

theorem branchUnder_eq_none_iff :
    branchUnder order key branches = none ↔
      ∀ branch ∈ branches, order branch.key key ≠ .eq := by
  simp only [branchUnder, List.find?_eq_none, Branch.isUnder_eq_true, ne_eq]

variable [Std.TransCmp order]

theorem child_eq_branchUnder (hnode : trie.node id = .ok node)
    (hascends : order.Ascends (node.branches.map Branch.key)) :
    trie.child order id key =
      .ok ((branchUnder order key node.branches).map Branch.child) := by
  cases hfound : branchUnder order key node.branches with
  | none => exact child_of_no_branch hnode (branchUnder_eq_none_iff.mp hfound)
  | some branch =>
      obtain ⟨hbranch, heq⟩ := of_branchUnder_eq_some hfound
      exact child_of_branch hnode hascends hbranch heq

theorem child_eq_some_iff (hnode : trie.node id = .ok node)
    (hascends : order.Ascends (node.branches.map Branch.key)) {found : NodeId} :
    trie.child order id key = .ok (some found) ↔
      ∃ branch ∈ node.branches, branch.child = found ∧ order branch.key key = .eq := by
  constructor
  · intro hchild
    rw [child_eq_branchUnder hnode hascends, Except.ok.injEq,
      Option.map_eq_some_iff] at hchild
    obtain ⟨branch, hfound, hends⟩ := hchild
    obtain ⟨hbranch, heq⟩ := of_branchUnder_eq_some hfound
    exact ⟨branch, hbranch, hends, heq⟩
  · rintro ⟨branch, hbranch, rfl, heq⟩
    exact child_of_branch hnode hascends hbranch heq

theorem child_eq_none_iff (hnode : trie.node id = .ok node)
    (hascends : order.Ascends (node.branches.map Branch.key)) :
    trie.child order id key = .ok none ↔
      ∀ branch ∈ node.branches, order branch.key key ≠ .eq := by
  rw [child_eq_branchUnder hnode hascends, Except.ok.injEq, Option.map_eq_none_iff,
    branchUnder_eq_none_iff]

end Lookup

/-! A branch put where the branches still ascend is found under its own key and takes
nothing from the others. There is one such place. -/

section Graft

variable {front back : List (Branch α)} {entry : Branch α}

private theorem graft_parted
    (hascends : order.Ascends ((front ++ entry :: back).map Branch.key)) :
    (∀ branch ∈ front, order branch.key entry.key = .lt) ∧
      ∀ branch ∈ back, order entry.key branch.key = .lt := by
  rw [List.map_append, List.map_cons, Order.Ascends, List.pairwise_append,
    List.pairwise_cons] at hascends
  obtain ⟨_, ⟨hback, _⟩, hfront⟩ := hascends
  exact ⟨fun branch hbranch =>
      hfront branch.key (List.mem_map_of_mem hbranch) entry.key List.mem_cons_self,
    fun branch hbranch => hback branch.key (List.mem_map_of_mem hbranch)⟩

variable [Std.TransCmp order]

theorem branchUnder_graft
    (hascends : order.Ascends ((front ++ entry :: back).map Branch.key)) (key : α) :
    branchUnder order key (front ++ entry :: back) =
      if order entry.key key = .eq then some entry
      else branchUnder order key (front ++ back) := by
  by_cases heq : order entry.key key = .eq
  · have hfront : branchUnder order key front = none := by
      apply branchUnder_eq_none_iff.mpr
      intro branch hbranch
      rw [Std.TransCmp.lt_of_lt_of_eq ((graft_parted hascends).1 branch hbranch) heq]
      decide
    rw [if_pos heq, branchUnder, List.find?_append, ← branchUnder, hfront, Option.none_or,
      List.find?_cons_of_pos (Branch.isUnder_eq_true.mpr heq)]
  · have hentry : ¬ entry.isUnder order key = true :=
      fun hunder => heq (Branch.isUnder_eq_true.mp hunder)
    rw [if_neg heq, branchUnder, branchUnder, List.find?_append, List.find?_append,
      List.find?_cons_of_neg hentry]

/-- The branches before the place are those below the new one. -/
private theorem filter_graft
    (hascends : order.Ascends ((front ++ entry :: back).map Branch.key)) :
    (front ++ back).filter (fun branch => order branch.key entry.key == .lt) = front := by
  obtain ⟨hfront, hback⟩ := graft_parted hascends
  have hbelow : front.filter (fun branch => order branch.key entry.key == .lt) = front := by
    apply List.filter_eq_self.mpr
    intro branch hbranch
    rw [hfront branch hbranch, beq_self_eq_true]
  have habove : back.filter (fun branch => order branch.key entry.key == .lt) = [] := by
    apply List.filter_eq_nil_iff.mpr
    intro branch hbranch
    rw [Std.OrientedCmp.gt_of_lt (hback branch hbranch)]
    decide
  rw [List.filter_append, hbelow, habove, List.append_nil]

theorem graft_unique {upper lower : List (Branch α)} (hsame : upper ++ lower = front ++ back)
    (hascends : order.Ascends ((front ++ entry :: back).map Branch.key))
    (hother : order.Ascends ((upper ++ entry :: lower).map Branch.key)) :
    upper = front ∧ lower = back := by
  have hupper : upper = front := by
    rw [← filter_graft hother, hsame, filter_graft hascends]
  subst hupper
  exact ⟨rfl, List.append_cancel_left hsame⟩

end Graft

/-! A trie in which all lists of branches and all paths ascend. -/

structure AscendsThroughout (order : Order α) (trie : Trie α) : Prop where
  lists : ∀ (id : Nat) node, trie.node id = .ok node →
    order.Ascends (node.branches.map Branch.key)
  paths : ∀ id : Nat, id < trie.nodes.size →
    ∃ path, trie.pathTo id = .ok path ∧ order.Ascends path

theorem Shaped.sorted_iff_ascendsThroughout [Std.TransCmp order] (hshaped : trie.Shaped) :
    Sorted order trie ↔ AscendsThroughout order trie := by
  constructor
  · intro hsorted
    refine ⟨hsorted.siblings, ?_⟩
    intro id hid
    obtain ⟨path, hleads⟩ := hshaped.exists_leads hid
    exact ⟨path, hshaped.pathTo_of_leads hleads, hsorted.path_ascends hshaped hleads⟩
  · intro hascends
    refine ⟨hascends.lists, ?_⟩
    intro id node key branch hnode hkey hbranch
    obtain ⟨keys, hleads⟩ := hshaped.exists_leads (lt_size_of_node hnode)
    rw [hshaped.key?_eq_getLast? hleads hnode] at hkey
    obtain ⟨upper, rfl⟩ := List.getLast?_eq_some_iff.mp hkey
    have hbelow := hleads.snoc hshaped hnode hbranch
    obtain ⟨child, hchild⟩ := hbelow.finish_node
    obtain ⟨path, hpath, hpathAscends⟩ := hascends.paths branch.child (lt_size_of_node hchild)
    rw [hshaped.leads_unique (hshaped.pathTo_eq_ok_iff.mp hpath) hbelow,
      List.append_assoc] at hpathAscends
    exact hpathAscends.of_append_right.head_lt List.mem_cons_self

theorem Shaped.key?_eq_none_iff (hshaped : trie.Shaped) {id : Nat} {node : Node α}
    (hnode : trie.node id = .ok node) : node.key? = none ↔ id = root := by
  constructor
  · intro hkey
    by_contra hne
    obtain ⟨key, parent, _, horigin, _⟩ := hshaped.hung id node hnode hne
    rw [Node.key?, horigin] at hkey
    contradiction
  · rintro rfl
    rw [Node.key?, hshaped.origin_of_root hnode]
    rfl

/-- A key may be put below the root, and below a node with a lesser key. -/
def HasPlace (order : Order α) (parent : NodeId) (owner : Node α) (key : α) : Prop :=
  parent = root ∨ ∃ above, owner.key? = some above ∧ order above key = .lt

theorem Shaped.hasPlace_iff (hshaped : trie.Shaped) {parent : Nat} {owner : Node α}
    (howner : trie.node parent = .ok owner) {key : α} :
    HasPlace order parent owner key ↔
      ∀ above, owner.key? = some above → order above key = .lt := by
  constructor
  · rintro (hroot | ⟨above, hkey, hlt⟩) other hother
    · rw [(hshaped.key?_eq_none_iff howner).mpr hroot] at hother
      contradiction
    · rw [hkey] at hother
      cases hother
      exact hlt
  · intro habove
    cases hkey : owner.key? with
    | none => exact Or.inl ((hshaped.key?_eq_none_iff howner).mp hkey)
    | some above => exact Or.inr ⟨above, hkey, habove above hkey⟩

/-! What comes of making a child. -/

structure Makes (order : Order α) (parent : NodeId) (owner : Node α) (key : α)
    (older newer : Trie α) : Prop where
  size_eq : newer.nodes.size = older.nodes.size + 1
  stored_eq : newer.stored = older.stored
  fresh : newer.node older.nodes.size = .ok (owner.below parent key)
  /-- The parent has one more branch, at the only place where its branches ascend. -/
  placed : ∃ front back, owner.branches = front ++ back ∧
    newer.node parent =
      .ok { owner with branches := front ++ { key, child := older.nodes.size } :: back } ∧
    order.Ascends ((front ++ { key, child := older.nodes.size } :: back).map Branch.key) ∧
    ∀ upper lower, owner.branches = upper ++ lower →
      order.Ascends ((upper ++ { key, child := older.nodes.size } :: lower).map Branch.key) →
        upper = front ∧ lower = back
  others : ∀ (id : Nat) node, id ≠ parent → older.node id = .ok node →
    newer.node id = .ok node
  /-- Under all other keys, and below all other nodes, the same children are found. -/
  child_eq : ∀ (id : Nat) other, id < older.nodes.size → newer.child order id other =
    if id = parent ∧ order key other = .eq then .ok (some older.nodes.size)
    else older.child order id other
  childless : ∀ other, newer.child order older.nodes.size other = .ok none
  ascends : AscendsThroughout order newer

section Makes

variable [Std.TransCmp order] {parent : Nat} {owner : Node α} {position : Nat} {key : α}

theorem node_attach_parted (howner : trie.node parent = .ok owner)
    (hascends : order.Ascends (owner.branches.map Branch.key))
    (hgap : owner.locate order key = .gap position) :
    (trie.attach parent owner position key).node parent =
        .ok { owner with
          branches := owner.branches.take position ++
            { key, child := trie.nodes.size } :: owner.branches.drop position } ∧
      order.Ascends ((owner.branches.take position ++
        { key, child := trie.nodes.size } :: owner.branches.drop position).map Branch.key) := by
  have hlater := grafted_ascends trie.nodes.size hascends hgap
  rw [grafted_eq (locate_gap_le hgap)] at hlater
  refine ⟨?_, hlater⟩
  rw [node_attach_parent howner, grafted_eq (locate_gap_le hgap)]

theorem child_attach_parent (howner : trie.node parent = .ok owner)
    (hascends : order.Ascends (owner.branches.map Branch.key))
    (hgap : owner.locate order key = .gap position) (other : α) :
    (trie.attach parent owner position key).child order parent other =
      if order key other = .eq then .ok (some trie.nodes.size)
      else trie.child order parent other := by
  obtain ⟨hlater, hlaterAscends⟩ := node_attach_parted howner hascends hgap
  rw [child_eq_branchUnder hlater hlaterAscends, child_eq_branchUnder howner hascends,
    branchUnder_graft hlaterAscends, List.take_append_drop]
  by_cases heq : order key other = .eq
  · rw [if_pos heq, if_pos heq, Option.map_some]
  · rw [if_neg heq, if_neg heq]

omit [Std.TransCmp order] in
theorem child_attach_other {id : Nat} (hid : id < trie.nodes.size) (hne : id ≠ parent)
    (other : α) :
    (trie.attach parent owner position key).child order id other =
      trie.child order id other := by
  obtain ⟨node, hnode⟩ := exists_node hid
  rw [child, child, node_attach_other hne hnode, hnode]

theorem Sorted.makes (hshaped : trie.Shaped) (hsorted : Sorted order trie)
    (howner : trie.node parent = .ok owner) (hgap : owner.locate order key = .gap position)
    (habove : ∀ above, owner.key? = some above → order above key = .lt) :
    Makes order parent owner key trie (trie.attach parent owner position key) := by
  have hsiblings := hsorted.siblings parent owner howner
  constructor
  case size_eq => exact size_attach
  case stored_eq => rfl
  case fresh => exact node_attach_fresh
  case placed =>
    obtain ⟨hlater, hascends⟩ := node_attach_parted howner hsiblings hgap
    refine ⟨_, _, (List.take_append_drop position owner.branches).symm, hlater, hascends, ?_⟩
    intro upper lower hsame hother
    refine graft_unique ?_ hascends hother
    rw [← hsame, List.take_append_drop]
  case others => exact fun id node hne hnode => node_attach_other hne hnode
  case child_eq =>
    intro id other hid
    by_cases hparent : id = parent
    · subst hparent
      rw [child_attach_parent howner hsiblings hgap]
      simp only [true_and]
    · rw [child_attach_other hid hparent, if_neg fun hboth => hparent hboth.1]
  case childless =>
    intro other
    exact child_of_no_branch node_attach_fresh fun branch hbranch => by cases hbranch
  case ascends =>
    exact (hshaped.attach howner (locate_gap_le hgap)).sorted_iff_ascendsThroughout.mp
      (hsorted.attach howner hgap habove)

end Makes

/-! Looking for a child and making it, with all that either can come to. -/

structure FindsOrMakes (order : Order α) (trie : Trie α) (parent : NodeId) (owner : Node α)
    (key : α) : Prop where
  answered : ∃ found, trie.child order parent key = .ok found
  found_iff : ∀ id, trie.child order parent key = .ok (some id) ↔
    ∃ branch ∈ owner.branches, branch.child = id ∧ order branch.key key = .eq
  unique : ∀ left ∈ owner.branches, ∀ right ∈ owner.branches,
    order left.key key = .eq → order right.key key = .eq → left = right
  /-- What is there is not made again, whatever the key of the parent. -/
  finds : ∀ id, trie.child order parent key = .ok (some id) →
    trie.childOrCreate order parent key = (.ok { node := id, created := false }, trie)
  makes : trie.child order parent key = .ok none →
    HasPlace order parent owner key →
      ∃ newer, trie.childOrCreate order parent key =
          (.ok { node := trie.nodes.size, created := true }, newer) ∧
        Makes order parent owner key trie newer
  breaks : trie.child order parent key = .ok none →
    ¬ HasPlace order parent owner key →
      ∃ above, owner.key? = some above ∧ order above key ≠ .lt ∧
        trie.childOrCreate order parent key =
          (.error (.notAscending (order above key)), trie)

theorem Sorted.findsOrMakes [Std.TransCmp order] (hshaped : trie.Shaped)
    (hsorted : Sorted order trie) {parent : Nat} {owner : Node α}
    (howner : trie.node parent = .ok owner) (key : α) :
    FindsOrMakes order trie parent owner key := by
  have hsiblings := hsorted.siblings parent owner howner
  constructor
  case answered => exact ⟨_, child_eq_branchUnder howner hsiblings⟩
  case found_iff => exact fun id => child_eq_some_iff howner hsiblings
  case unique =>
    intro left hleft right hright hleftEq hrightEq
    exact hsiblings.entry_unique hleft hright
      (Std.TransCmp.eq_trans hleftEq (Std.OrientedCmp.eq_symm hrightEq))
  case finds =>
    intro id hchild
    obtain ⟨branch, hbranch, rfl, heq⟩ := (child_eq_some_iff howner hsiblings).mp hchild
    exact childOrCreate_of_branch howner hsiblings hbranch heq
  case makes =>
    intro hnone hplace
    have hlacks := (child_eq_none_iff howner hsiblings).mp hnone
    have habove := (hshaped.hasPlace_iff howner).mp hplace
    rcases childOrCreate_cases order key howner with
      ⟨branch, hbranch, heq, _⟩ | ⟨position, hgap, _, hresult⟩ | ⟨_, above, _, hkey, hnot, _⟩
    · exact absurd heq (hlacks branch hbranch)
    · exact ⟨_, hresult, hsorted.makes hshaped howner hgap habove⟩
    · exact absurd (habove above hkey) hnot
  case breaks =>
    intro hnone hplaceless
    have hlacks := (child_eq_none_iff howner hsiblings).mp hnone
    rcases childOrCreate_cases order key howner with
      ⟨branch, hbranch, heq, _⟩ | ⟨_, _, habove, _⟩ | ⟨_, above, _, hkey, hnot, hresult⟩
    · exact absurd heq (hlacks branch hbranch)
    · exact absurd ((hshaped.hasPlace_iff howner).mpr habove) hplaceless
    · exact ⟨above, hkey, hnot, hresult⟩

/-- Whatever comparisons a trie has grown under: where it ascends under a lawful order, a
child is found under its key or made in its place, and no other answer changes. -/
theorem grown_findsOrMakes (changes : List (Change α)) (order : Order α) [Std.TransCmp order]
    (hascends : AscendsThroughout order (grown changes)) (parent : NodeId) (owner : Node α)
    (howner : (grown changes).node parent = .ok owner) (key : α) :
    FindsOrMakes order (grown changes) parent owner key := by
  have hshaped := grown_shaped changes
  have hsorted := hshaped.sorted_iff_ascendsThroughout.mpr hascends
  exact hsorted.findsOrMakes hshaped howner key

/-- The keys 12 and 14 below the key 1. -/
def forkNode : Node Int :=
  { origin := some { key := 1, parent := root }
    depth := 1
    branches := [{ key := 12, child := 2 }, { key := 14, child := 4 }]
    terminal := false }

theorem grown_findsOrMakes_mixedChanges :
    (grown mixedChanges).child Order.byLastDigit 1 33 = .ok none ∧
      ((grown mixedChanges).childOrCreate Order.byLastDigit 1 33).1 =
        .ok { node := 6, created := true } ∧
      AscendsThroughout Order.byLastDigit (grown mixedChanges) ∧
      (grown mixedChanges).node 1 = .ok forkNode ∧
      FindsOrMakes Order.byLastDigit (grown mixedChanges) 1 forkNode 33 :=
  have hpaths : (grown mixedChanges).pathFlaw Order.byLastDigit = .ok none := by
    decide +kernel
  have hbranches : (grown mixedChanges).branchFlaw Order.byLastDigit = .ok none := by
    decide +kernel
  have hpasses := (grown_shaped mixedChanges).auditable.passes_iff.mp ⟨hpaths, hbranches⟩
  have hascends : AscendsThroughout Order.byLastDigit (grown mixedChanges) :=
    ⟨hpasses.2, hpasses.1⟩
  have howner : (grown mixedChanges).node 1 = .ok forkNode :=
    node_eq_ok_iff.mpr (by decide +kernel)
  ⟨by decide +kernel, by decide +kernel, hascends, howner,
    grown_findsOrMakes mixedChanges Order.byLastDigit hascends 1 forkNode howner 33⟩

/-- There is a gap for 21 before its branches, but the key of the node is not below 21. -/
example : (grown mixedChanges).childOrCreate Order.byLastDigit 1 21 =
    (.error (.notAscending .eq), grown mixedChanges) := by
  decide +kernel

end Trie

end Containment
