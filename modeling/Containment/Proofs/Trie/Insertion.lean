import Containment.Proofs.Trie.Founders
import Containment.Proofs.Trie.Laid

namespace Containment.Trie

variable {α : Type} {trie older newer : Trie α} {order : Order α}

/-! A path goes down through the nodes that are there, as far as it agrees with them. From
the first key on that no branch stands for, every key makes a node: a node that is new
has no branches. -/

section Extend

variable {start parent finish : Nat} {owner : Node α} {key : α} {keys path : List α}

theorem childOrCreate_of_branch [Std.TransCmp order] {branch : Branch α}
    (howner : trie.node parent = .ok owner)
    (hascends : order.Ascends (owner.branches.map Branch.key))
    (hbranch : branch ∈ owner.branches) (heq : order branch.key key = .eq) :
    trie.childOrCreate order parent key =
      (.ok { node := branch.child, created := false }, trie) := by
  obtain ⟨index, hspot⟩ := locate_of_branch hascends hbranch heq
  simp only [Trie.childOrCreate, howner, hspot]

theorem Sorted.extend_of_leads [Std.TransCmp order] (hsorted : Sorted order trie)
    (hleads : trie.Leads start keys finish) (hagree : order.Agree keys path) :
    trie.extend order start path = (.ok { node := finish, created := 0 }, trie) := by
  induction hleads generalizing path with
  | here =>
      cases hagree
      rfl
  | down hnode hbranch _ induction =>
      cases hagree with
      | cons heq hrest =>
          rw [extend_cons,
            childOrCreate_of_branch hnode (hsorted.siblings _ _ hnode) hbranch heq]
          simp only [induction hrest]
          rfl

/-- No branch of the node stands for the key. -/
def Lacks (order : Order α) (trie : Trie α) (id : NodeId) (key : α) : Prop :=
  ∀ node, trie.node id = .ok node → ∀ branch ∈ node.branches, order branch.key key ≠ .eq

theorem childOrCreate_of_lacks (howner : trie.node parent = .ok owner)
    (hlacks : Lacks order trie parent key)
    (habove : ∀ above, owner.key? = some above → order above key = .lt) :
    ∃ position, owner.locate order key = .gap position ∧
      trie.childOrCreate order parent key =
        (.ok { node := trie.nodes.size, created := true },
          trie.attach parent owner position key) := by
  rcases childOrCreate_cases order key howner with
    ⟨branch, hbranch, heq, _⟩ | ⟨position, hgap, _, hresult⟩ | ⟨_, above, _, hkey, hnot, _⟩
  · exact absurd heq (hlacks owner howner branch hbranch)
  · exact ⟨position, hgap, hresult⟩
  · exact absurd (habove above hkey) hnot

/-- The nodes that are made are numbered in the order of their keys. -/
theorem Shaped.extend_of_lacks [Std.TransCmp order] (hshaped : trie.Shaped) {rest : List α}
    (hstart : trie.node start = .ok owner) (hlacks : Lacks order trie start key)
    (hascends : order.Ascends (key :: rest))
    (habove : ∀ above, owner.key? = some above → order above key = .lt) :
    ∃ grown, trie.extend order start (key :: rest) =
        (.ok { node := trie.nodes.size + rest.length, created := rest.length + 1 }, grown) ∧
      ∀ position ≤ rest.length,
        grown.Leads start ((key :: rest).take (position + 1)) (trie.nodes.size + position) := by
  induction rest generalizing trie start owner key with
  | nil =>
      obtain ⟨place, hgap, hstep⟩ := childOrCreate_of_lacks hstart hlacks habove
      refine ⟨_, by rw [extend_cons, hstep]; rfl, ?_⟩
      intro position hposition
      obtain rfl := Nat.le_zero.mp hposition
      exact leads_attach hstart (locate_gap_le hgap)
  | cons next rest induction =>
      obtain ⟨place, hgap, hstep⟩ := childOrCreate_of_lacks hstart hlacks habove
      have hfirst := @leads_attach α trie start place owner key hstart (locate_gap_le hgap)
      have hmade : (trie.attach start owner place key).node trie.nodes.size =
          .ok (owner.below start key) := node_attach_fresh
      have hmiddle : (trie.attach start owner place key).Shaped :=
        hshaped.attach hstart (locate_gap_le hgap)
      have hbare : Lacks order (trie.attach start owner place key) trie.nodes.size next := by
        intro node hnode branch hbranch
        rw [node_unique hnode hmade] at hbranch
        cases hbranch
      obtain ⟨grown, hextend, hlater⟩ := induction hmiddle hmade hbare hascends.tail (by
        intro above hkey
        cases hkey
        exact hascends.head_lt List.mem_cons_self)
      rw [size_attach] at hextend hlater
      obtain ⟨_, hgrows, _⟩ := hmiddle.extend order (next :: rest) hmade
      rw [hextend] at hgrows
      refine ⟨grown, ?_, ?_⟩
      · rw [extend_cons, hstep]
        simp only [hextend, Except.map, Bool.toNat_true, List.length_cons]
        rw [Nat.add_assoc, Nat.add_comm 1]
      · intro position hposition
        cases position with
        | zero => exact hgrows.leads hfirst
        | succ position =>
            have hrest := hlater position (Nat.le_of_succ_le_succ hposition)
            rw [Nat.add_assoc, Nat.add_comm 1] at hrest
            exact (hgrows.leads hfirst).append hrest

/-- A path parts into what is there and what is not. -/
theorem Shaped.exists_parting (hshaped : trie.Shaped) (order : Order α) (path : List α)
    (hstart : trie.node start = .ok owner) :
    ∃ front back way middle, path = front ++ back ∧ trie.Leads start way middle ∧
      order.Agree way front ∧ ∀ key rest, back = key :: rest → Lacks order trie middle key := by
  induction path generalizing start owner with
  | nil =>
      exact ⟨[], [], [], start, rfl, .here hstart, Order.agree_nil, fun _ _ hcons => by
        contradiction⟩
  | cons key rest induction =>
      by_cases hmet : ∃ branch ∈ owner.branches, order branch.key key = .eq
      · obtain ⟨branch, hbranch, heq⟩ := hmet
        obtain ⟨child, hchild, _⟩ := hshaped.linked start owner branch hstart hbranch
        obtain ⟨front, back, way, middle, rfl, hleads, hagree, hlacks⟩ := induction hchild
        exact ⟨key :: front, back, branch.key :: way, middle, rfl, .down hstart hbranch hleads,
          Order.agree_cons.mpr ⟨heq, hagree⟩, hlacks⟩
      · refine ⟨[], key :: rest, [], start, rfl, .here hstart, Order.agree_nil, ?_⟩
        rintro _ _ ⟨rfl, rfl⟩ node hnode branch hbranch heq
        rw [node_unique hnode hstart] at hbranch
        exact hmet ⟨branch, hbranch, heq⟩

end Extend

/-! What becomes of the marks, and which paths are found, when a path is followed and what
is missing of it is made. -/

theorem Grows.terminalAt_eq (hgrows : Grows older newer) (id : NodeId) :
    newer.terminalAt id = older.terminalAt id := by
  by_cases hold : id < older.nodes.size
  · obtain ⟨node, hnode⟩ := exists_node hold
    obtain ⟨later, hlater, hkept⟩ := hgrows.kept id node hnode
    rw [terminalAt_of_node hnode, terminalAt_of_node hlater, hkept.terminal_eq]
  · rw [terminalAt_of_beyond hold, terminalAt_eq_false_iff]
    intro later hlater
    exact hgrows.fresh id later hlater (Nat.le_of_not_lt hold)

section Reaches

variable [Std.TransCmp order] {way actual : List α} {reached : Reached}

/-- A path along the way is found, and a path to a node that was made is along it. -/
theorem Reaches.found_iff (holder : older.Shaped) (holderSorted : Sorted order older)
    (hextend : older.extend order root way = (.ok reached, newer))
    (hreaches : Reaches order older newer way actual reached) (path : List α) :
    (∃ id, newer.findPath order path = .ok (some id)) ↔
      (∃ id, older.findPath order path = .ok (some id)) ∨
        ∃ count, order.Agree path (way.take count) := by
  obtain ⟨_, hroot, _⟩ := holder.rooted
  obtain ⟨_, hgrows, _⟩ := holder.extend order way hroot
  rw [hextend] at hgrows
  simp only [holderSorted.findPath_eq_some_iff holder,
    hreaches.sorted.findPath_eq_some_iff hreaches.shaped]
  constructor
  · rintro ⟨id, keys, hleads, hagree⟩
    by_cases hold : id < older.nodes.size
    · exact Or.inl ⟨id, keys, hgrows.leads_old holder hreaches.shaped hleads hold, hagree⟩
    · obtain ⟨front, last, position, rfl, hlast, hfront⟩ :=
        holder.extend_made (.here hroot) hextend hleads (Nat.le_of_not_lt hold)
      refine Or.inr ⟨position + 1, hagree.symm.trans ?_⟩
      rw [List.take_add_one, hlast]
      exact hfront.append (Order.Agree.refl [last])
  · rintro (⟨id, keys, hleads, hagree⟩ | ⟨count, hagree⟩)
    · exact ⟨id, keys, hgrows.leads hleads, hagree⟩
    · obtain ⟨middle, hfront, _⟩ := hreaches.leads.split_at count
      exact ⟨middle, _, hfront, (hreaches.agree.take count).trans hagree.symm⟩

end Reaches

/-! How much of a path is there, and what a successful insertion of it does. -/

/-- The longest beginning of the path that is found has this length. -/
structure FoundUpTo (order : Order α) (trie : Trie α) (path : List α) (length : Nat) :
    Prop where
  length_le : length ≤ path.length
  found : ∃ id, trie.findPath order (path.take length) = .ok (some id)
  missing : ∀ longer, length < longer → longer ≤ path.length →
    trie.findPath order (path.take longer) = .ok none

structure Effect (order : Order α) (path : List α) (length : Nat) (insertion : Insertion)
    (older newer : Trie α) : Prop where
  created_eq : insertion.created = path.length - length
  size_eq : newer.nodes.size = older.nodes.size + insertion.created
  /-- The nodes that are made are numbered in the order of the path. -/
  made : ∀ position key, length ≤ position → path[position]? = some key →
    ∃ node, newer.node (older.nodes.size + (position - length)) = .ok node ∧
      node.key? = some key ∧
      newer.findPath order (path.take (position + 1)) =
        .ok (some (older.nodes.size + (position - length)))
  ends : newer.findPath order path = .ok (some insertion.node)
  depth_eq : ∃ node, newer.node insertion.node = .ok node ∧ node.depth = path.length
  /-- The last node was not there or not marked. -/
  inserted_iff : insertion.inserted = true ↔
    ∀ node, older.node insertion.node = .ok node → node.terminal = false
  inserted_of_created : 0 < insertion.created → insertion.inserted = true
  stored_eq : newer.stored = older.stored + insertion.inserted.toNat
  /-- What was found is found where it was; of the rest the beginnings of the path are. -/
  found : ∀ other, ∃ before later, older.findPath order other = .ok before ∧
    newer.findPath order other = .ok later ∧
    (∀ id, before = some id → later = some id) ∧
    (before = none → (later.isSome = true ↔ ∃ count, order.Agree other (path.take count)))
  nodes : NodesEndure older newer
  terminalAt_eq : ∀ id, newer.terminalAt id = (older.terminalAt id || id == insertion.node)
  again : ∀ same, order.Agree same path → newer.insertPath order same =
    (.ok { node := insertion.node, inserted := false, created := 0 }, newer)

section Parted

variable {front back way : List α} {middle : Nat}

variable [Std.TransCmp order] (hshaped : trie.Shaped) (hsorted : Sorted order trie)
  (hleads : trie.Leads root way middle) (hagree : order.Agree way front)
  (hlacks : ∀ key rest, back = key :: rest → Lacks order trie middle key)
include hshaped hsorted hleads hagree hlacks

theorem Sorted.foundUpTo : FoundUpTo order trie (front ++ back) front.length where
  length_le := by
    rw [List.length_append]
    exact Nat.le_add_right _ _
  found := by
    rw [List.take_left]
    exact ⟨middle, (hsorted.findPath_eq_some_iff hshaped).mpr ⟨way, hleads, hagree⟩⟩
  missing := by
    intro longer hlonger hle
    rw [hsorted.findPath_eq_none_iff hshaped]
    rintro ⟨keys, finish, hkeys, hkeysAgree⟩
    obtain ⟨count, rfl⟩ := Nat.exists_eq_add_of_lt hlonger
    rw [Nat.add_assoc, List.take_length_add_append] at hkeysAgree
    cases hback : back with
    | nil =>
        rw [hback, List.append_nil] at hle
        omega
    | cons key rest =>
        rw [hback, List.take_succ_cons] at hkeysAgree
        obtain ⟨upper, lower, rfl, hupper, hlower⟩ := hkeysAgree.symm.exists_append
        obtain ⟨stop, hfront, hrest⟩ := hkeys.split
        obtain ⟨_, rfl⟩ := hsorted.leads_agree_unique hleads hfront (hagree.trans hupper)
        cases hlower with
        | cons heq _ =>
            cases hrest with
            | down hnode hbranch _ =>
                exact hlacks key rest hback _ hnode _ hbranch (Std.OrientedCmp.eq_symm heq)

/-- The first key that is missing is above the last node that is there. -/
theorem Sorted.extend_parted (hascends : order.Ascends (front ++ back)) :
    ∃ reached grown, trie.extend order root (front ++ back) = (.ok reached, grown) ∧
      reached.created = back.length ∧
      ∀ position < back.length,
        grown.Leads root (way ++ back.take (position + 1)) (trie.nodes.size + position) := by
  rw [extend_append (hsorted.extend_of_leads hleads hagree)]
  cases back with
  | nil => exact ⟨_, trie, rfl, rfl, fun _ hposition => absurd hposition (Nat.not_lt_zero _)⟩
  | cons key rest =>
      obtain ⟨owner, howner⟩ := hleads.finish_node
      have habove : ∀ above, owner.key? = some above → order above key = .lt := by
        intro above hkey
        rw [hshaped.key?_eq_getLast? hleads howner] at hkey
        obtain ⟨upper, rfl⟩ := List.getLast?_eq_some_iff.mp hkey
        have hway := hascends.of_agree (hagree.symm.append (Order.Agree.refl (key :: rest)))
        rw [List.append_assoc] at hway
        exact hway.of_append_right.head_lt List.mem_cons_self
      obtain ⟨grown, hextend, hmade⟩ := hshaped.extend_of_lacks howner (hlacks key rest rfl)
        hascends.of_append_right habove
      obtain ⟨_, hgrows, _⟩ := hshaped.extend order (key :: rest) howner
      rw [hextend] at hgrows ⊢
      refine ⟨_, grown, rfl, rfl, ?_⟩
      intro position hposition
      exact (hgrows.leads hleads).append (hmade position (Nat.le_of_lt_succ hposition))

end Parted

/-! A mark is only set at the end of the path. -/

theorem terminalAt_marked {id : Nat} {node : Node α} (hnode : trie.node id = .ok node)
    (other : NodeId) :
    (trie.marked id).terminalAt other = (trie.terminalAt other || other == id) := by
  by_cases hother : other < trie.nodes.size
  · obtain ⟨found, hfound⟩ := exists_node hother
    rw [terminalAt_of_node hfound, terminalAt_of_node (node_marked hfound)]
  · have hne : other ≠ id := by
      rintro rfl
      exact hother (lt_size_of_node hnode)
    have hmarked : ¬ other < (trie.marked id).nodes.size := by
      rwa [size_marked]
    rw [terminalAt_of_beyond hother, terminalAt_of_beyond hmarked, beq_false_of_ne hne]
    rfl

theorem Shaped.insertPath_terminalAt (hshaped : trie.Shaped) {path : List α}
    {insertion : Insertion} (hinsert : trie.insertPath order path = (.ok insertion, newer)) :
    insertion.inserted = !trie.terminalAt insertion.node ∧
      ∀ id, newer.terminalAt id = (trie.terminalAt id || id == insertion.node) := by
  obtain ⟨_, hroot, _⟩ := hshaped.rooted
  obtain ⟨_, hgrows, _⟩ := hshaped.extend order path hroot
  rcases hshaped.insertPath_cases order path with ⟨_, hresult⟩ | ⟨_, _, _, hresult⟩ |
    ⟨reached, grown, node, hextend, hnode, _, ⟨hterminal, hresult⟩ | ⟨hterminal, hresult⟩⟩
  · rw [hresult] at hinsert
    cases hinsert
  · rw [hresult] at hinsert
    cases hinsert
  · rw [hresult] at hinsert
    cases hinsert
    rw [hextend] at hgrows
    have hmarked : trie.terminalAt reached.node = true := by
      rw [← hgrows.terminalAt_eq, terminalAt_of_node hnode, hterminal]
    refine ⟨by rw [hmarked]; rfl, ?_⟩
    intro id
    rw [hgrows.terminalAt_eq]
    by_cases heq : id = reached.node
    · rw [heq, hmarked]
      rfl
    · rw [beq_false_of_ne heq, Bool.or_false]
  · rw [hresult] at hinsert
    cases hinsert
    rw [hextend] at hgrows
    have hunmarked : trie.terminalAt reached.node = false := by
      rw [← hgrows.terminalAt_eq, terminalAt_of_node hnode, hterminal]
    refine ⟨by rw [hunmarked]; rfl, ?_⟩
    intro id
    rw [terminalAt_marked hnode, hgrows.terminalAt_eq]

/-- The same path once more makes no node and sets no mark. -/
theorem Sorted.insertPath_of_stored [Std.TransCmp order] (hsorted : Sorted order trie)
    {path actual : List α} {id : Nat} {node : Node α} (hne : path ≠ [])
    (hleads : trie.Leads root actual id) (hagree : order.Agree actual path)
    (hnode : trie.node id = .ok node) (hterminal : node.terminal = true) :
    trie.insertPath order path =
      (.ok { node := id, inserted := false, created := 0 }, trie) := by
  have hextend := hsorted.extend_of_leads hleads hagree
  cases path with
  | nil => contradiction
  | cons key rest =>
      rw [Trie.insertPath, hextend]
      exact store_of_terminal hnode hterminal

theorem Shaped.leads_insertPath (hshaped : older.Shaped) {path : List α} {insertion : Insertion}
    (hinsert : older.insertPath order path = (.ok insertion, newer)) {start finish : Nat}
    {keys : List α} (hleads : older.Leads start keys finish) : newer.Leads start keys finish := by
  obtain ⟨reached, grown, hextend, _, _, hleadsIff, _⟩ := hshaped.insertPath_eq_ok hinsert
  obtain ⟨_, hroot, _⟩ := hshaped.rooted
  obtain ⟨_, hgrows, _⟩ := hshaped.extend order path hroot
  rw [hextend] at hgrows
  exact (hleadsIff start keys finish).mpr (hgrows.leads hleads)

/-- A node on the way that the insertion went has the key that the path has there. -/
private theorem Inserts.found_made [Std.TransCmp order] {path actual : List α}
    {insertion : Insertion} (hinserts : Inserts order older newer path actual insertion)
    {front back way : List α} {id offset : Nat} {key : α}
    (hagree : order.Agree way front) (hkey : back[offset]? = some key)
    (hleads : newer.Leads root (way ++ back.take (offset + 1)) id) :
    ∃ node, newer.node id = .ok node ∧ node.key? = some key ∧
      newer.findPath order (front ++ back.take (offset + 1)) = .ok (some id) := by
  obtain ⟨node, hnode⟩ := hleads.finish_node
  refine ⟨node, hnode, ?_, ?_⟩
  · rw [hinserts.shaped.key?_eq_getLast? hleads hnode, List.take_add_one, hkey,
      Option.toList_some, ← List.append_assoc, List.getLast?_concat]
  · exact (hinserts.sorted.findPath_eq_some_iff hinserts.shaped).mpr
      ⟨_, hleads, hagree.append (Order.Agree.refl _)⟩

section Effect

variable [Std.TransCmp order] {path actual : List α} {insertion : Insertion}
  (hshaped : older.Shaped) (hsorted : Sorted order older) (hne : path ≠ [])
  (hascends : order.Ascends path)
  (hinsert : older.insertPath order path = (.ok insertion, newer))
  (hinserts : Inserts order older newer path actual insertion)
include hshaped hsorted hne hascends hinsert hinserts

private theorem Inserts.found_iff (other : List α) :
    (∃ id, newer.findPath order other = .ok (some id)) ↔
      (∃ id, older.findPath order other = .ok (some id)) ∨
        ∃ count, order.Agree other (path.take count) := by
  obtain ⟨reached, grown, hextend, _, _, hleadsIff, _⟩ := hshaped.insertPath_eq_ok hinsert
  obtain ⟨_, _, _, hfollows, hreaches⟩ := hsorted.extend_reaches hshaped hne hascends
  rw [hextend] at hfollows
  cases hfollows
  rw [← hreaches.found_iff hshaped hsorted hextend other]
  simp only [hinserts.sorted.findPath_eq_some_iff hinserts.shaped,
    hreaches.sorted.findPath_eq_some_iff hreaches.shaped, hleadsIff]

private theorem Inserts.found_after (other : List α) :
    ∃ before later, older.findPath order other = .ok before ∧
      newer.findPath order other = .ok later ∧
      (∀ id, before = some id → later = some id) ∧
      (before = none →
        (later.isSome = true ↔ ∃ count, order.Agree other (path.take count))) := by
  obtain ⟨before, hbefore⟩ := hsorted.exists_findPath hshaped other
  obtain ⟨later, hlater⟩ := hinserts.sorted.exists_findPath hinserts.shaped other
  refine ⟨before, later, hbefore, hlater, ?_, ?_⟩
  · rintro id rfl
    obtain ⟨keys, hleads, hagree⟩ := (hsorted.findPath_eq_some_iff hshaped).mp hbefore
    have hkept := hshaped.leads_insertPath hinsert hleads
    have hfound : newer.findPath order other = .ok (some id) :=
      (hinserts.sorted.findPath_eq_some_iff hinserts.shaped).mpr ⟨keys, hkept, hagree⟩
    rw [hfound] at hlater
    cases hlater
    rfl
  · rintro rfl
    have hiff := hinserts.found_iff hshaped hsorted hne hascends hinsert other
    rw [hbefore, hlater] at hiff
    simpa [Option.isSome_iff_exists] using hiff

theorem Inserts.effect : ∃ length, FoundUpTo order older path length ∧
    Effect order path length insertion older newer := by
  obtain ⟨_, hroot, _⟩ := hshaped.rooted
  obtain ⟨front, back, way, middle, rfl, hway, hagree, hlacks⟩ :=
    hshaped.exists_parting order path hroot
  obtain ⟨reached, grown, hextend, hcreated, _, hleadsIff, hmust⟩ :=
    hshaped.insertPath_eq_ok hinsert
  obtain ⟨_, _, hparted, hcount, hmade⟩ :=
    hsorted.extend_parted hshaped hway hagree hlacks hascends
  rw [hextend] at hparted
  cases hparted
  obtain ⟨hinserted, hmarks⟩ := hshaped.insertPath_terminalAt hinsert
  obtain ⟨last, hlast⟩ := hinserts.leads.finish_node
  refine ⟨front.length, hsorted.foundUpTo hshaped hway hagree hlacks, ?_⟩
  constructor
  case created_eq => rw [← hcreated, hcount, List.length_append, Nat.add_sub_cancel_left]
  case size_eq => exact hshaped.insertPath_size hinsert
  case made =>
    intro position key hposition hkey
    obtain ⟨offset, rfl⟩ := Nat.exists_eq_add_of_le hposition
    rw [List.getElem?_append_right hposition, Nat.add_sub_cancel_left] at hkey
    have hleads := (hleadsIff _ _ _).mpr (hmade offset (List.getElem?_eq_some_iff.mp hkey).1)
    rw [Nat.add_sub_cancel_left, Nat.add_assoc, List.take_length_add_append]
    exact hinserts.found_made hagree hkey hleads
  case ends =>
    exact (hinserts.sorted.findPath_eq_some_iff hinserts.shaped).mpr
      ⟨actual, hinserts.leads, hinserts.agree⟩
  case depth_eq =>
    refine ⟨last, hlast, ?_⟩
    rw [hinserts.shaped.length_of_leads hinserts.leads hlast, hinserts.agree.length_eq]
  case inserted_iff =>
    rw [← terminalAt_eq_false_iff, hinserted, Bool.not_eq_true']
  case inserted_of_created => exact hmust
  case stored_eq => exact hinserts.stored_eq
  case found => exact hinserts.found_after hshaped hsorted hne hascends hinsert
  case nodes =>
    have hendure := hshaped.nodesEndure_insertPath order (front ++ back)
    rwa [hinsert] at hendure
  case terminalAt_eq => exact hmarks
  case again =>
    intro same hsame
    have hterminal : last.terminal = true := by
      rw [← terminalAt_of_node hlast, hmarks, beq_self_eq_true, Bool.or_true]
    have hsameNe : same ≠ [] := by
      rintro rfl
      exact hne (List.length_eq_zero_iff.mp hsame.length_eq.symm)
    exact hinserts.sorted.insertPath_of_stored hsameNe hinserts.leads
      (hinserts.agree.trans hsame.symm) hlast hterminal

end Effect

/-- Whatever was inserted before, an ascending path makes the nodes that are missing of it,
marks its last node and changes nothing else, and nothing at all the second time. -/
theorem laid_insertPath_effect (order : Order α) [Std.TransCmp order] (paths : List (List α))
    (path : List α) (hne : path ≠ []) (hascending : order.ascending path = true) :
    ∃ insertion newer length,
      (laid order paths).insertPath order path = (.ok insertion, newer) ∧
      FoundUpTo order (laid order paths) path length ∧
      Effect order path length insertion (laid order paths) newer := by
  have hascends := Order.ascending_eq_true_iff.mp hascending
  have hsorted := laid_sorted order paths
  obtain ⟨insertion, newer, actual, hinsert, hinserts⟩ :=
    hsorted.insertPath (laid_shaped order paths) hne hascends
  obtain ⟨length, hfound, heffect⟩ :=
    hinserts.effect (laid_shaped order paths) hsorted hne hascends hinsert
  exact ⟨insertion, newer, length, hinsert, hfound, heffect⟩

theorem laid_insertPath_effect_crossedPaths :
    ((laid Order.byLastDigit crossedPaths).insertPath Order.byLastDigit [31, 13, 6, 8]).1 =
        .ok { node := 7, inserted := true, created := 2 } ∧
      [(31 : Int), 13, 6, 8] ≠ [] ∧ Order.byLastDigit.ascending [31, 13, 6, 8] = true ∧
      ∃ insertion newer length,
        (laid Order.byLastDigit crossedPaths).insertPath Order.byLastDigit [31, 13, 6, 8] =
          (.ok insertion, newer) ∧
        FoundUpTo Order.byLastDigit (laid Order.byLastDigit crossedPaths) [31, 13, 6, 8] length ∧
        Effect Order.byLastDigit [31, 13, 6, 8] length insertion
          (laid Order.byLastDigit crossedPaths) newer :=
  have hne : [(31 : Int), 13, 6, 8] ≠ [] := List.cons_ne_nil _ _
  have hascending : Order.byLastDigit.ascending [31, 13, 6, 8] = true := by decide +kernel
  ⟨by decide +kernel, hne, hascending,
    laid_insertPath_effect Order.byLastDigit crossedPaths [31, 13, 6, 8] hne hascending⟩

end Containment.Trie
