import Containment.Proofs.Bisect
import Containment.Proofs.Except
import Containment.Proofs.Trie.Shape
import Containment.Trie.Insertion
import Mathlib.Data.List.InsertIdx

namespace Containment.Trie

variable {α : Type} {trie : Trie α}

/-! What a node keeps while the trie around it grows: everything but its
branches, to which others may come at any place. -/

structure Kept (node later : Node α) : Prop where
  origin_eq : later.origin = node.origin
  depth_eq : later.depth = node.depth
  terminal_eq : later.terminal = node.terminal
  branches_sublist : node.branches.Sublist later.branches

theorem Kept.refl (node : Node α) : Kept node node :=
  ⟨rfl, rfl, rfl, List.Sublist.refl _⟩

theorem Kept.trans {node middle later : Node α} (hfirst : Kept node middle)
    (hsecond : Kept middle later) : Kept node later where
  origin_eq := hsecond.origin_eq.trans hfirst.origin_eq
  depth_eq := hsecond.depth_eq.trans hfirst.depth_eq
  terminal_eq := hsecond.terminal_eq.trans hfirst.terminal_eq
  branches_sublist := hfirst.branches_sublist.trans hsecond.branches_sublist

/-! One trie grows out of another: the nodes are kept, and what is new is not
stored. -/

structure Grows (older newer : Trie α) : Prop where
  kept : ∀ (id : Nat) node, older.node id = .ok node →
    ∃ later, newer.node id = .ok later ∧ Kept node later
  fresh : ∀ (id : Nat) later, newer.node id = .ok later → older.nodes.size ≤ id →
    later.terminal = false
  stored_eq : newer.stored = older.stored

namespace Grows

variable {older middle newer : Trie α}

theorem refl (trie : Trie α) : Grows trie trie where
  kept _ node hnode := ⟨node, hnode, Kept.refl node⟩
  fresh _ _ hlater hle := absurd (lt_size_of_node hlater) (Nat.not_lt_of_le hle)
  stored_eq := rfl

theorem trans (hfirst : Grows older middle) (hsecond : Grows middle newer) :
    Grows older newer where
  kept id node hnode := by
    obtain ⟨between, hbetween, hkept⟩ := hfirst.kept id node hnode
    obtain ⟨later, hlater, hkeptLater⟩ := hsecond.kept id between hbetween
    exact ⟨later, hlater, hkept.trans hkeptLater⟩
  fresh id later hlater hle := by
    by_cases hmiddle : middle.nodes.size ≤ id
    · exact hsecond.fresh id later hlater hmiddle
    · obtain ⟨between, hbetween⟩ := exists_node (Nat.lt_of_not_le hmiddle)
      obtain ⟨found, hfound, hkept⟩ := hsecond.kept id between hbetween
      rw [node_unique hlater hfound, hkept.terminal_eq]
      exact hfirst.fresh id between hbetween hle
  stored_eq := hsecond.stored_eq.trans hfirst.stored_eq

/-- A way down stays a way down. -/
theorem leads (hgrows : Grows older newer) {start finish : Nat} {keys : List α}
    (hleads : older.Leads start keys finish) : newer.Leads start keys finish := by
  induction hleads with
  | here hnode =>
      obtain ⟨later, hlater, _⟩ := hgrows.kept _ _ hnode
      exact .here hlater
  | down hnode hbranch _ induction =>
      obtain ⟨later, hlater, hkept⟩ := hgrows.kept _ _ hnode
      exact .down hlater (hkept.branches_sublist.subset hbranch) induction

/-- The way to a node that was there before was there before. -/
theorem leads_old (hgrows : Grows older newer) (holder : older.Shaped)
    (hnewer : newer.Shaped) {id : Nat} {keys : List α} (hleads : newer.Leads root keys id)
    (hid : id < older.nodes.size) : older.Leads root keys id := by
  obtain ⟨oldKeys, hold⟩ := holder.exists_leads hid
  rwa [hnewer.leads_unique hleads (hgrows.leads hold)]

end Grows

/-- What changing one entry does to a count. -/
private theorem countP_modify {ι : Type} (passes : ι → Bool) (change : ι → ι)
    {entries : List ι} {index : Nat} {entry : ι} (hentry : entries[index]? = some entry) :
    (entries.modify index change).countP passes + (passes entry).toNat =
      entries.countP passes + (passes (change entry)).toNat := by
  induction entries generalizing index with
  | nil => simp at hentry
  | cons first rest induction =>
      cases index with
      | zero =>
          cases hentry
          cases hold : passes entry <;> cases hnew : passes (change entry) <;>
            simp [hold, hnew]
      | succ index =>
          have hrest := induction (by simpa using hentry)
          simp only [List.modify_succ_cons, List.countP_cons]
          omega

/-! Attaching a node. -/

section Attach

variable {parent position : Nat} {owner : Node α} {key : α}

def grafted (owner : Node α) (position : Nat) (key : α) (child : NodeId) : Node α :=
  { owner with branches := owner.branches.insertIdx position { key, child } }

@[simp] theorem size_attach :
    (trie.attach parent owner position key).nodes.size = trie.nodes.size + 1 := by
  simp [attach]

theorem node_attach_fresh :
    (trie.attach parent owner position key).node trie.nodes.size =
      .ok (owner.below parent key) := by
  simp only [node_eq_ok_iff, attach, Array.getElem?_push, Array.size_modify, if_true]

theorem node_attach_parent (howner : trie.node parent = .ok owner) :
    (trie.attach parent owner position key).node parent =
      .ok (grafted owner position key trie.nodes.size) := by
  have hlt := lt_size_of_node howner
  rw [node_eq_ok_iff] at howner ⊢
  simp [attach, Array.getElem?_push, Array.getElem?_modify, Nat.ne_of_lt hlt, howner, grafted]

theorem node_attach_other {id : Nat} {node : Node α} (hne : id ≠ parent)
    (hnode : trie.node id = .ok node) :
    (trie.attach parent owner position key).node id = .ok node := by
  have hlt := lt_size_of_node hnode
  rw [node_eq_ok_iff] at hnode ⊢
  simp [attach, Array.getElem?_push, Array.getElem?_modify, Nat.ne_of_lt hlt, hnode, hne.symm]

theorem node_attach_cases {id : Nat} {later : Node α}
    (howner : trie.node parent = .ok owner)
    (hlater : (trie.attach parent owner position key).node id = .ok later) :
    (id = trie.nodes.size ∧ later = owner.below parent key) ∨
      (id = parent ∧ later = grafted owner position key trie.nodes.size) ∨
      (id ≠ parent ∧ trie.node id = .ok later) := by
  have hlt := lt_size_of_node hlater
  rw [size_attach] at hlt
  by_cases hfresh : id = trie.nodes.size
  · subst hfresh
    exact Or.inl ⟨rfl, node_unique hlater node_attach_fresh⟩
  by_cases hparent : id = parent
  · subst hparent
    exact Or.inr (Or.inl ⟨rfl, node_unique hlater (node_attach_parent howner)⟩)
  · obtain ⟨node, hnode⟩ := @exists_node α trie id (by omega)
    rw [node_unique hlater (node_attach_other hparent hnode)]
    exact Or.inr (Or.inr ⟨hparent, hnode⟩)

theorem leads_attach (howner : trie.node parent = .ok owner)
    (hposition : position ≤ owner.branches.length) :
    (trie.attach parent owner position key).Leads parent [key] trie.nodes.size := by
  have hbranch : { key, child := trie.nodes.size } ∈
      (grafted owner position key trie.nodes.size).branches :=
    (List.mem_insertIdx hposition).mpr (Or.inl rfl)
  exact .down (node_attach_parent howner) hbranch (.here node_attach_fresh)

theorem grows_attach (howner : trie.node parent = .ok owner) :
    Grows trie (trie.attach parent owner position key) where
  kept id node hnode := by
    by_cases hparent : id = parent
    · subst hparent
      rw [node_unique hnode howner]
      exact ⟨_, node_attach_parent howner, rfl, rfl, rfl, List.sublist_insertIdx _ _ _⟩
    · exact ⟨node, node_attach_other hparent hnode, Kept.refl node⟩
  fresh id later hlater hle := by
    rcases node_attach_cases howner hlater with ⟨_, rfl⟩ | ⟨rfl, _⟩ | ⟨_, hnode⟩
    · rfl
    · exact absurd (lt_size_of_node howner) (Nat.not_lt_of_le hle)
    · exact absurd (lt_size_of_node hnode) (Nat.not_lt_of_le hle)
  stored_eq := rfl

theorem terminalCount_attach (howner : trie.node parent = .ok owner) :
    (trie.attach parent owner position key).terminalCount = trie.terminalCount := by
  have hcount := countP_modify Node.terminal
    (fun node => { node with
      branches := node.branches.insertIdx position { key, child := trie.nodes.size } })
    (Array.getElem?_toList.trans (node_eq_ok_iff.mp howner))
  simp only [terminalCount, attach, Array.toList_push, Array.toList_modify,
    List.countP_append, List.countP_singleton]
  simp only [Node.below, Bool.false_eq_true, if_false, Nat.add_zero]
  exact Nat.add_right_cancel hcount

private theorem children_grafted_nodup (hshaped : trie.Shaped)
    (howner : trie.node parent = .ok owner) (hposition : position ≤ owner.branches.length) :
    (grafted owner position key trie.nodes.size).children.Nodup := by
  have hperm : ((owner.branches.insertIdx position { key, child := trie.nodes.size }).map
      Branch.child).Perm (trie.nodes.size :: owner.children) :=
    (List.perm_insertIdx _ _ hposition).map Branch.child
  refine hperm.nodup_iff.mpr (List.nodup_cons.mpr ⟨?_, hshaped.children_nodup parent owner howner⟩)
  intro hmem
  obtain ⟨branch, hbranch, hchild⟩ := List.mem_map.mp hmem
  obtain ⟨child, hnode, _⟩ := hshaped.linked parent owner branch howner hbranch
  rw [hchild] at hnode
  exact Nat.lt_irrefl _ (lt_size_of_node hnode)

theorem Shaped.attach (hshaped : trie.Shaped) (howner : trie.node parent = .ok owner)
    (hposition : position ≤ owner.branches.length) :
    (trie.attach parent owner position key).Shaped where
  rooted := by
    obtain ⟨node, hroot, horigin, hdepth, hterminal⟩ := hshaped.rooted
    obtain ⟨later, hlater, hkept⟩ := (grows_attach howner).kept root node hroot
    exact ⟨later, hlater, hkept.origin_eq.trans horigin, hkept.depth_eq.trans hdepth,
      hkept.terminal_eq.trans hterminal⟩
  hung := by
    intro id later hlater hne
    by_cases hfresh : id = trie.nodes.size
    · subst hfresh
      obtain rfl := node_unique hlater node_attach_fresh
      refine ⟨key, parent, _, rfl, lt_size_of_node howner, node_attach_parent howner, rfl, ?_⟩
      exact (List.mem_insertIdx hposition).mpr (Or.inl rfl)
    · have hlt := lt_size_of_node hlater
      rw [size_attach] at hlt
      obtain ⟨node, hnode⟩ := @exists_node α trie id (by omega)
      obtain ⟨found, hfound, hkept⟩ := (grows_attach howner).kept id node hnode
      obtain rfl := node_unique hlater hfound
      obtain ⟨above, grand, holder, horigin, hbefore, hholder, hdepth, hbranch⟩ :=
        hshaped.hung id node hnode hne
      obtain ⟨laterHolder, hlaterHolder, hkeptHolder⟩ :=
        (grows_attach howner).kept grand holder hholder
      refine ⟨above, grand, laterHolder, hkept.origin_eq.trans horigin, hbefore,
        hlaterHolder, ?_, hkeptHolder.branches_sublist.subset hbranch⟩
      rw [hkept.depth_eq, hkeptHolder.depth_eq, hdepth]
  linked := by
    intro id later branch hlater hbranch
    have hold : ∀ {node : Node α}, trie.node id = .ok node → branch ∈ node.branches →
        ∃ child, (trie.attach parent owner position key).node branch.child = .ok child ∧
          child.origin = some { key := branch.key, parent := id } := by
      intro node hnode hmem
      obtain ⟨child, hchild, horigin⟩ := hshaped.linked id node branch hnode hmem
      obtain ⟨laterChild, hlaterChild, hkept⟩ := (grows_attach howner).kept _ child hchild
      exact ⟨laterChild, hlaterChild, hkept.origin_eq.trans horigin⟩
    rcases node_attach_cases howner hlater with ⟨rfl, rfl⟩ | ⟨rfl, rfl⟩ | ⟨_, hnode⟩
    · cases hbranch
    · rcases (List.mem_insertIdx hposition).mp hbranch with rfl | hmem
      · exact ⟨_, node_attach_fresh, rfl⟩
      · exact hold howner hmem
    · exact hold hnode hbranch
  children_nodup := by
    intro id later hlater
    rcases node_attach_cases howner hlater with ⟨_, rfl⟩ | ⟨_, rfl⟩ | ⟨_, hnode⟩
    · exact List.nodup_nil
    · exact children_grafted_nodup hshaped howner hposition
    · exact hshaped.children_nodup id later hnode
  counted := by
    rw [terminalCount_attach howner]
    exact hshaped.counted

end Attach

/-! Looking for a child, and all that this can come to. -/

section Arrival

variable {order : Order α} {parent : Nat} {owner : Node α} {key : α}

theorem locate_met {index : Nat} {branch : Branch α}
    (hmet : owner.locate order key = .met index branch) :
    branch ∈ owner.branches ∧ order branch.key key = .eq :=
  bisect_met hmet

theorem locate_gap_le {position : Nat} (hgap : owner.locate order key = .gap position) :
    position ≤ owner.branches.length :=
  bisect_gap_le hgap

theorem childOrCreate_cases (order : Order α) (key : α)
    (howner : trie.node parent = .ok owner) :
    (∃ branch ∈ owner.branches, order branch.key key = .eq ∧
      trie.childOrCreate order parent key =
        (.ok { node := branch.child, created := false }, trie)) ∨
    (∃ position, owner.locate order key = .gap position ∧
      (∀ above, owner.key? = some above → order above key = .lt) ∧
      trie.childOrCreate order parent key =
        (.ok { node := trie.nodes.size, created := true },
          trie.attach parent owner position key)) ∨
    (∃ position above, owner.locate order key = .gap position ∧
      owner.key? = some above ∧ order above key ≠ .lt ∧
      trie.childOrCreate order parent key =
        (.error (.notAscending (order above key)), trie)) := by
  cases hspot : owner.locate order key with
  | met index branch =>
      obtain ⟨hbranch, heq⟩ := locate_met hspot
      exact Or.inl ⟨branch, hbranch, heq, by simp only [childOrCreate, howner, hspot]⟩
  | gap position =>
      refine Or.inr ?_
      cases habove : owner.key? with
      | none =>
          refine Or.inl ⟨position, rfl, by simp, ?_⟩
          simp only [childOrCreate, howner, hspot, habove, Option.map_none, Option.getD_none]
      | some above =>
          cases hstanding : order above key with
          | lt =>
              refine Or.inl ⟨position, rfl, by simpa using hstanding, ?_⟩
              simp only [childOrCreate, howner, hspot, habove, Option.map_some,
                Option.getD_some, hstanding]
          | eq | gt =>
              refine Or.inr ⟨position, above, rfl, rfl, by simp [hstanding], ?_⟩
              simp only [childOrCreate, howner, hspot, habove, Option.map_some,
                Option.getD_some, hstanding]

/-- Whatever the order, a trie keeps its shape and only grows. A child that is
reached is never the root. -/
theorem Shaped.childOrCreate (hshaped : trie.Shaped) (order : Order α) (key : α)
    (howner : trie.node parent = .ok owner) :
    (trie.childOrCreate order parent key).2.Shaped ∧
      Grows trie (trie.childOrCreate order parent key).2 ∧
      ∀ arrival, (trie.childOrCreate order parent key).1 = .ok arrival →
        arrival.node ≠ root ∧
          ∃ node, (trie.childOrCreate order parent key).2.node arrival.node = .ok node := by
  rcases childOrCreate_cases order key howner with
    ⟨branch, hbranch, _, hresult⟩ | ⟨position, hgap, _, hresult⟩ | ⟨_, _, _, _, _, hresult⟩
  · rw [hresult]
    refine ⟨hshaped, Grows.refl trie, ?_⟩
    rintro _ ⟨rfl⟩
    obtain ⟨child, hchild, _, hlt, _⟩ := hshaped.branch_child howner hbranch
    exact ⟨Nat.ne_of_gt (Nat.zero_lt_of_lt hlt), child, hchild⟩
  · rw [hresult]
    refine ⟨hshaped.attach howner (locate_gap_le hgap), grows_attach howner, ?_⟩
    rintro _ ⟨rfl⟩
    exact ⟨Nat.ne_of_gt hshaped.size_pos, _, node_attach_fresh⟩
  · rw [hresult]
    exact ⟨hshaped, Grows.refl trie, fun _ hok => by contradiction⟩

end Arrival

/-! Following a path and making what is missing. -/

theorem extend_cons (trie : Trie α) (order : Order α) (start : NodeId) (key : α)
    (rest : List α) :
    trie.extend order start (key :: rest) =
      match trie.childOrCreate order start key with
      | (.error fault, unchanged) => (.error fault, unchanged)
      | (.ok arrival, grown) =>
          ((grown.extend order arrival.node rest).1.map fun reached =>
              { reached with created := reached.created + arrival.created.toNat },
            (grown.extend order arrival.node rest).2) := rfl

theorem extend_cons_eq_ok {order : Order α} {start : NodeId} {key : α} {rest : List α}
    {reached : Reached} {final : Trie α}
    (hextend : trie.extend order start (key :: rest) = (.ok reached, final)) :
    ∃ arrival grown found, trie.childOrCreate order start key = (.ok arrival, grown) ∧
      grown.extend order arrival.node rest = (.ok found, final) ∧
      reached = { found with created := found.created + arrival.created.toNat } := by
  rw [extend_cons] at hextend
  cases hstep : trie.childOrCreate order start key with
  | mk outcome grown =>
      rw [hstep] at hextend
      cases outcome with
      | error fault => cases hextend
      | ok arrival =>
          obtain ⟨hmap, hfinal⟩ := Prod.mk.inj hextend
          obtain ⟨found, hfound, hreached⟩ := Except.map_eq_ok_iff.mp hmap
          exact ⟨arrival, grown, found, rfl, Prod.ext hfound hfinal, hreached.symm⟩

theorem extend_append {order : Order α} {start : NodeId} {front back : List α}
    {reached : Reached} {middle : Trie α}
    (hfront : trie.extend order start front = (.ok reached, middle)) :
    trie.extend order start (front ++ back) =
      ((middle.extend order reached.node back).1.map fun found =>
          { found with created := found.created + reached.created },
        (middle.extend order reached.node back).2) := by
  induction front generalizing trie start reached with
  | nil =>
      cases hfront
      rw [List.nil_append]
      refine Prod.ext ?_ rfl
      cases (middle.extend order start back).1 <;> rfl
  | cons first front induction =>
      obtain ⟨arrival, grown, found, hstep, hrest, rfl⟩ := extend_cons_eq_ok hfront
      rw [List.cons_append, extend_cons, hstep]
      simp only [induction hrest]
      cases (middle.extend order found.node back).1 with
      | error fault => rfl
      | ok last => simp only [Except.map, Nat.add_assoc]

theorem Shaped.extend (hshaped : trie.Shaped) (order : Order α) (keys : List α)
    {start : Nat} {first : Node α} (hstart : trie.node start = .ok first) :
    (trie.extend order start keys).2.Shaped ∧ Grows trie (trie.extend order start keys).2 ∧
      ∀ reached, (trie.extend order start keys).1 = .ok reached →
        (start ≠ root ∨ keys ≠ [] → reached.node ≠ root) ∧
          ∃ node, (trie.extend order start keys).2.node reached.node = .ok node := by
  induction keys generalizing trie start first with
  | nil =>
      refine ⟨hshaped, Grows.refl trie, ?_⟩
      rintro _ ⟨rfl⟩
      exact ⟨fun hne => hne.resolve_right (fun hnil => hnil rfl), first, hstart⟩
  | cons key rest induction =>
      obtain ⟨hgrownShaped, hgrows, harrival⟩ := hshaped.childOrCreate order key hstart
      rw [extend_cons]
      cases hstep : trie.childOrCreate order start key with
      | mk outcome grown =>
          rw [hstep] at hgrownShaped hgrows harrival
          cases outcome with
          | error fault => exact ⟨hgrownShaped, hgrows, fun _ hok => by contradiction⟩
          | ok arrival =>
              obtain ⟨hne, node, hnode⟩ := harrival arrival rfl
              obtain ⟨hshapedLater, hgrowsLater, hreached⟩ :=
                induction hgrownShaped hnode
              refine ⟨hshapedLater, hgrows.trans hgrowsLater, ?_⟩
              intro reached hok
              obtain ⟨found, hfound, rfl⟩ := Except.map_eq_ok_iff.mp hok
              obtain ⟨hroot, hlast⟩ := hreached found hfound
              exact ⟨fun _ => hroot (Or.inl hne), hlast⟩

/-! Marking the end of a path. -/

section Store

variable {reached : Reached} {node : Node α}

theorem store_of_terminal (hnode : trie.node reached.node = .ok node)
    (hterminal : node.terminal = true) :
    trie.store reached =
      (.ok { node := reached.node, inserted := false, created := reached.created }, trie) := by
  simp [store, hnode, hterminal]

def marked (trie : Trie α) (id : NodeId) : Trie α :=
  { nodes := trie.nodes.modify id fun node => { node with terminal := true }
    stored := trie.stored + 1 }

theorem store_of_not_terminal (hnode : trie.node reached.node = .ok node)
    (hterminal : node.terminal = false) :
    trie.store reached =
      (.ok { node := reached.node, inserted := true, created := reached.created },
        trie.marked reached.node) := by
  simp [store, marked, hnode, hterminal]

theorem node_marked {id other : Nat} (hnode : trie.node other = .ok node) :
    (trie.marked id).node other =
      .ok { node with terminal := node.terminal || other == id } := by
  rw [node_eq_ok_iff] at hnode ⊢
  simp only [marked, Array.getElem?_modify, hnode]
  by_cases heq : id = other
  · simp [heq]
  · have hbeq : (other == id) = false := beq_false_of_ne (Ne.symm heq)
    simp [heq, hbeq]

@[simp] theorem size_marked {id : Nat} :
    (trie.marked id).nodes.size = trie.nodes.size := by
  simp [marked]

theorem exists_of_node_marked {id other : Nat} {later : Node α}
    (hlater : (trie.marked id).node other = .ok later) :
    ∃ node, trie.node other = .ok node ∧
      later = { node with terminal := node.terminal || other == id } := by
  have hlt := lt_size_of_node hlater
  rw [size_marked] at hlt
  obtain ⟨node, hnode⟩ := exists_node hlt
  exact ⟨node, hnode, node_unique hlater (node_marked hnode)⟩

theorem terminalCount_marked {id : Nat} (hnode : trie.node id = .ok node)
    (hterminal : node.terminal = false) :
    (trie.marked id).terminalCount = trie.terminalCount + 1 := by
  have hcount := countP_modify Node.terminal
    (fun node : Node α => { node with terminal := true })
    (Array.getElem?_toList.trans (node_eq_ok_iff.mp hnode))
  rw [hterminal] at hcount
  simpa [terminalCount, marked] using hcount

theorem Shaped.marked (hshaped : trie.Shaped) {id : Nat} (hne : id ≠ root)
    (hnode : trie.node id = .ok node) (hterminal : node.terminal = false) :
    (trie.marked id).Shaped where
  rooted := by
    obtain ⟨first, hroot, horigin, hdepth, hunmarked⟩ := hshaped.rooted
    refine ⟨_, node_marked hroot, horigin, hdepth, ?_⟩
    simp [hunmarked, Ne.symm hne]
  hung := by
    intro other later hlater hother
    obtain ⟨found, hfound, rfl⟩ := exists_of_node_marked hlater
    obtain ⟨key, parent, owner, horigin, hlt, howner, hdepth, hbranch⟩ :=
      hshaped.hung other found hfound hother
    exact ⟨key, parent, _, horigin, hlt, node_marked howner, hdepth, hbranch⟩
  linked := by
    intro other later branch hlater hbranch
    obtain ⟨found, hfound, rfl⟩ := exists_of_node_marked hlater
    obtain ⟨child, hchild, horigin⟩ := hshaped.linked other found branch hfound hbranch
    exact ⟨_, node_marked hchild, horigin⟩
  children_nodup := by
    intro other later hlater
    obtain ⟨found, hfound, rfl⟩ := exists_of_node_marked hlater
    exact hshaped.children_nodup other found hfound
  counted := by
    rw [terminalCount_marked hnode hterminal, ← hshaped.counted]
    rfl

theorem leads_marked_iff {id start finish : Nat} {keys : List α} :
    (trie.marked id).Leads start keys finish ↔ trie.Leads start keys finish := by
  constructor
  · intro hleads
    induction hleads with
    | here hlater =>
        obtain ⟨found, hfound, rfl⟩ := exists_of_node_marked hlater
        exact .here hfound
    | down hlater hbranch _ induction =>
        obtain ⟨found, hfound, rfl⟩ := exists_of_node_marked hlater
        exact .down hfound hbranch induction
  · intro hleads
    induction hleads with
    | here hfound => exact .here (node_marked hfound)
    | down hfound hbranch _ induction => exact .down (node_marked hfound) hbranch induction

end Store

/-- An insertion follows its path and marks the end of it, unless that is marked already. -/
theorem Shaped.insertPath_cases (hshaped : trie.Shaped) (order : Order α) (path : List α) :
    (path = [] ∧ trie.insertPath order path = (.error .emptyPath, trie)) ∨
    (∃ fault grown, trie.extend order root path = (.error fault, grown) ∧
      trie.insertPath order path = (.error fault, grown)) ∨
    (∃ reached grown node, trie.extend order root path = (.ok reached, grown) ∧
      grown.node reached.node = .ok node ∧ reached.node ≠ root ∧
      ((node.terminal = true ∧ trie.insertPath order path =
          (.ok { node := reached.node, inserted := false, created := reached.created },
            grown)) ∨
        (node.terminal = false ∧ trie.insertPath order path =
          (.ok { node := reached.node, inserted := true, created := reached.created },
            grown.marked reached.node)))) := by
  cases path with
  | nil => exact Or.inl ⟨rfl, rfl⟩
  | cons key rest =>
      obtain ⟨first, hroot, _⟩ := hshaped.rooted
      obtain ⟨_, _, hreached⟩ := hshaped.extend order (key :: rest) hroot
      rw [Trie.insertPath]
      cases hextend : trie.extend order root (key :: rest) with
      | mk outcome grown =>
          rw [hextend] at hreached
          cases outcome with
          | error fault => exact Or.inr (Or.inl ⟨fault, grown, rfl, rfl⟩)
          | ok reached =>
              obtain ⟨hne, node, hnode⟩ := hreached reached rfl
              refine Or.inr (Or.inr ⟨reached, grown, node, rfl, hnode,
                hne (Or.inr (List.cons_ne_nil _ _)), ?_⟩)
              cases hterminal : node.terminal with
              | true => exact Or.inl ⟨rfl, store_of_terminal hnode hterminal⟩
              | false => exact Or.inr ⟨rfl, store_of_not_terminal hnode hterminal⟩

theorem Shaped.insertPath (hshaped : trie.Shaped) (order : Order α) (path : List α) :
    (trie.insertPath order path).2.Shaped := by
  obtain ⟨_, hroot, _⟩ := hshaped.rooted
  have hextended := (hshaped.extend order path hroot).1
  rcases hshaped.insertPath_cases order path with ⟨_, hresult⟩ | ⟨_, _, hextend, hresult⟩ |
    ⟨_, _, _, hextend, hnode, hne, ⟨_, hresult⟩ | ⟨hterminal, hresult⟩⟩
  · rw [hresult]
    exact hshaped
  · rw [hextend] at hextended
    rw [hresult]
    exact hextended
  · rw [hextend] at hextended
    rw [hresult]
    exact hextended
  · rw [hextend] at hextended
    rw [hresult]
    exact hextended.marked hne hnode hterminal

theorem shaped_empty : (Trie.empty : Trie α).Shaped where
  rooted := ⟨Node.root, rfl, rfl, rfl, rfl⟩
  hung := by
    intro id node hnode hne
    have hlt := lt_size_of_node hnode
    exact absurd (Nat.lt_one_iff.mp hlt) hne
  linked := by
    intro id node branch hnode hbranch
    obtain rfl : id = root := Nat.lt_one_iff.mp (lt_size_of_node hnode)
    cases hnode
    cases hbranch
  children_nodup := by
    intro id node hnode
    obtain rfl : id = root := Nat.lt_one_iff.mp (lt_size_of_node hnode)
    cases hnode
    exact List.nodup_nil
  counted := rfl

end Containment.Trie
