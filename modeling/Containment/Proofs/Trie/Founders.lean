import Containment.Proofs.Trie.Stored

namespace Containment.Trie

variable {α : Type} {trie older newer grown : Trie α} {order : Order α}

/-! What insertion makes: how many nodes, and under which keys. -/

section Made

variable {parent start finish : Nat} {key : α} {front keys way : List α} {arrival : Arrival}
  {reached : Reached}

theorem childOrCreate_size
    (hstep : trie.childOrCreate order parent key = (.ok arrival, grown)) :
    grown.nodes.size = trie.nodes.size + arrival.created.toNat := by
  cases hnode : trie.node parent with
  | error fault =>
      simp only [childOrCreate, hnode] at hstep
      cases hstep
  | ok owner =>
      rcases childOrCreate_cases order key hnode with
        ⟨_, _, _, hresult⟩ | ⟨_, _, _, hresult⟩ | ⟨_, _, _, _, _, hresult⟩
      · rw [hstep] at hresult
        cases hresult
        rfl
      · rw [hstep] at hresult
        cases hresult
        exact size_attach
      · rw [hstep] at hresult
        cases hresult

theorem extend_size (hextend : trie.extend order start keys = (.ok reached, grown)) :
    grown.nodes.size = trie.nodes.size + reached.created := by
  induction keys generalizing trie start reached with
  | nil =>
      cases hextend
      rfl
  | cons key rest induction =>
      obtain ⟨arrival, middle, found, hstep, hrest, rfl⟩ := extend_cons_eq_ok hextend
      rw [induction hrest, childOrCreate_size hstep, Nat.add_assoc, Nat.add_comm found.created]

/-- Going down leads to ever younger nodes, so once a node is made the rest are too. -/
theorem Shaped.le_of_extend (hshaped : trie.Shaped) {owner : Node α}
    (hstart : trie.node start = .ok owner)
    (hextend : trie.extend order start keys = (.ok reached, grown)) :
    start ≤ reached.node ∧ (0 < reached.created → trie.nodes.size ≤ reached.node) := by
  induction keys generalizing trie start owner reached with
  | nil =>
      cases hextend
      exact ⟨Nat.le_refl _, fun hcreated => absurd hcreated (Nat.lt_irrefl 0)⟩
  | cons key rest induction =>
      obtain ⟨arrival, middle, found, hstep, hrest, rfl⟩ := extend_cons_eq_ok hextend
      obtain ⟨hmiddle, _, harrival⟩ := hshaped.childOrCreate order key hstart
      rw [hstep] at hmiddle harrival
      obtain ⟨_, next, hnext⟩ := harrival arrival rfl
      obtain ⟨hle, hfresh⟩ := induction hmiddle hnext hrest
      rcases childOrCreate_cases order key hstart with
        ⟨branch, hbranch, _, hresult⟩ | ⟨_, _, _, hresult⟩ | ⟨_, _, _, _, _, hresult⟩
      · rw [hstep] at hresult
        cases hresult
        obtain ⟨_, _, _, hlt, _⟩ := hshaped.branch_child hstart hbranch
        exact ⟨Nat.le_of_lt (Nat.lt_of_lt_of_le hlt hle), hfresh⟩
      · rw [hstep] at hresult
        cases hresult
        exact ⟨Nat.le_trans (Nat.le_of_lt (lt_size_of_node hstart)) hle, fun _ => hle⟩
      · rw [hstep] at hresult
        cases hresult

theorem Shaped.terminal_of_created (hshaped : trie.Shaped)
    (hextend : trie.extend order root keys = (.ok reached, grown))
    (hcreated : 0 < reached.created) {last : Node α} (hlast : grown.node reached.node = .ok last) :
    last.terminal = false := by
  obtain ⟨_, hroot, _⟩ := hshaped.rooted
  have hgrows := (hshaped.extend order keys hroot).2.1
  rw [hextend] at hgrows
  exact hgrows.fresh _ last hlast ((hshaped.le_of_extend hroot hextend).2 hcreated)

/-- A child is reached under an equivalent key, and made under the key itself. -/
theorem Shaped.childOrCreate_leads [Std.ReflCmp order] (hshaped : trie.Shaped)
    (hfront : trie.Leads root front parent)
    (hstep : trie.childOrCreate order parent key = (.ok arrival, grown)) :
    ∃ actual, order actual key = .eq ∧ grown.Leads root (front ++ [actual]) arrival.node ∧
      (arrival.created = true → actual = key ∧ arrival.node = trie.nodes.size) := by
  obtain ⟨owner, howner⟩ := hfront.finish_node
  rcases childOrCreate_cases order key howner with
    ⟨branch, hbranch, heq, hresult⟩ | ⟨position, hgap, _, hresult⟩ | ⟨_, _, _, _, _, hresult⟩
  · rw [hstep] at hresult
    cases hresult
    exact ⟨branch.key, heq, hfront.snoc hshaped howner hbranch, fun hcreated => by contradiction⟩
  · rw [hstep] at hresult
    cases hresult
    have hparent : (trie.attach parent owner position key).Leads root front parent :=
      (grows_attach howner).leads hfront
    exact ⟨key, Std.ReflCmp.compare_self,
      hparent.append (leads_attach howner (locate_gap_le hgap)), fun _ => ⟨rfl, rfl⟩⟩
  · rw [hstep] at hresult
    cases hresult

/-- The path to a node that was made ends with the very key that was asked for, and
agrees with what was asked for up to there. -/
theorem Shaped.extend_made [Std.TransCmp order] (hshaped : trie.Shaped)
    (hfront : trie.Leads root front start)
    (hextend : trie.extend order start keys = (.ok reached, grown))
    (hway : grown.Leads root way finish) (hmade : trie.nodes.size ≤ finish) :
    ∃ above key position, way = above ++ [key] ∧ keys[position]? = some key ∧
      order.Agree above (front ++ keys.take position) := by
  induction keys generalizing trie start front reached with
  | nil =>
      cases hextend
      obtain ⟨node, hnode⟩ := hway.finish_node
      exact absurd (lt_size_of_node hnode) (Nat.not_lt_of_le hmade)
  | cons key rest induction =>
      obtain ⟨arrival, middle, found, hstep, hrest, rfl⟩ := extend_cons_eq_ok hextend
      obtain ⟨owner, howner⟩ := hfront.finish_node
      have hmiddle := (hshaped.childOrCreate order key howner).1
      rw [hstep] at hmiddle
      obtain ⟨actual, heq, hleads, hcreated⟩ := hshaped.childOrCreate_leads hfront hstep
      have hsize := childOrCreate_size hstep
      by_cases hlater : middle.nodes.size ≤ finish
      · obtain ⟨above, last, position, hwayEq, hlast, hagree⟩ :=
          induction hmiddle hleads hrest hlater
        refine ⟨above, last, position + 1, hwayEq, hlast, hagree.trans ?_⟩
        rw [List.append_assoc, List.take_succ_cons]
        exact (Order.Agree.refl front).append
          (Order.agree_cons.mpr ⟨heq, Order.Agree.refl _⟩)
      · have htrue : arrival.created = true := by
          by_contra hfalse
          rw [Bool.not_eq_true] at hfalse
          rw [hfalse, Bool.toNat_false, Nat.add_zero] at hsize
          omega
        obtain ⟨rfl, hnode⟩ := hcreated htrue
        rw [htrue, Bool.toNat_true] at hsize
        obtain rfl : finish = arrival.node :=
          Nat.le_antisymm (by rw [hnode]; omega) (by rw [hnode]; exact hmade)
        obtain ⟨last, hlast⟩ := hleads.finish_node
        obtain ⟨hgrown, hgrows, _⟩ := hmiddle.extend order rest hlast
        rw [hrest] at hgrown hgrows
        refine ⟨front, actual, 0, hgrown.leads_unique hway (hgrows.leads hleads), rfl, ?_⟩
        rw [List.take_zero, List.append_nil]
        exact Order.Agree.refl front

end Made

/-- An insertion follows its path and at most marks the node where it ends. One that has
made a node has stored something new: no node that was there before can be the last. -/
theorem Shaped.insertPath_eq_ok (hshaped : trie.Shaped) {path : List α} {insertion : Insertion}
    (hinsert : trie.insertPath order path = (.ok insertion, newer)) :
    ∃ reached grown, trie.extend order root path = (.ok reached, grown) ∧
      reached.created = insertion.created ∧ grown.nodes.size = newer.nodes.size ∧
      (∀ start keys finish, newer.Leads start keys finish ↔ grown.Leads start keys finish) ∧
      (0 < insertion.created → insertion.inserted = true) := by
  rcases hshaped.insertPath_cases order path with ⟨_, hresult⟩ | ⟨_, _, _, hresult⟩ |
    ⟨reached, grown, node, hextend, hnode, _, ⟨hterminal, hresult⟩ | ⟨_, hresult⟩⟩
  · rw [hresult] at hinsert
    cases hinsert
  · rw [hresult] at hinsert
    cases hinsert
  · rw [hresult] at hinsert
    cases hinsert
    refine ⟨reached, newer, hextend, rfl, rfl, fun _ _ _ => Iff.rfl, fun hcreated => ?_⟩
    have hfresh := hshaped.terminal_of_created hextend hcreated hnode
    rw [hterminal] at hfresh
    cases hfresh
  · rw [hresult] at hinsert
    cases hinsert
    exact ⟨reached, grown, hextend, rfl, size_marked.symm, fun _ _ _ => leads_marked_iff,
      fun _ => rfl⟩

theorem Shaped.insertPath_size (hshaped : trie.Shaped) {path : List α} {insertion : Insertion}
    (hinsert : trie.insertPath order path = (.ok insertion, newer)) :
    newer.nodes.size = trie.nodes.size + insertion.created := by
  obtain ⟨reached, grown, hextend, hcreated, hsize, _⟩ := hshaped.insertPath_eq_ok hinsert
  rw [← hsize, ← hcreated, extend_size hextend]

/-! Where the key of each node comes from: of the sequences that were inserted it is
the first to have run along with the path to the node that gave the key. -/

structure Founded (order : Order α) (history : List (List α)) (trie : Trie α) : Prop where
  follows : ∀ keys ∈ history, ∀ count, ∃ way finish,
    trie.Leads root way finish ∧ order.Agree way (keys.take count)
  founder : ∀ above key finish, trie.Leads root (above ++ [key]) finish →
    ∃ earlier keys later, history = earlier ++ keys :: later ∧
      keys[above.length]? = some key ∧
      order.Agree (above ++ [key]) (keys.take (above.length + 1)) ∧
      ∀ other ∈ earlier, ¬ order.Agree (above ++ [key]) (other.take (above.length + 1))

theorem founded_empty : Founded order [] (Trie.empty : Trie α) where
  follows := fun _ hkeys => absurd hkeys List.not_mem_nil
  founder := by
    intro above key finish hleads
    obtain ⟨node, hnode⟩ := hleads.finish_node
    obtain rfl : finish = root := Nat.lt_one_iff.mp (lt_size_of_node hnode)
    have hpath := shaped_empty.leads_unique hleads (.here hnode)
    simp at hpath

section Founded

variable [Std.TransCmp order] {history : List (List α)} {path actual : List α}
  {insertion : Insertion}

/-- No older path agrees with that to a node that was made. -/
private theorem Inserts.not_agree_of_made
    (hinserts : Inserts order older newer path actual insertion)
    (hkept : ∀ way (finish : Nat), older.Leads root way finish → newer.Leads root way finish)
    {way : List α} {finish : Nat} (hway : newer.Leads root way finish)
    (hmade : older.nodes.size ≤ finish) {otherWay : List α} {other : Nat}
    (hother : older.Leads root otherWay other) : ¬ order.Agree otherWay way := by
  intro hagree
  obtain ⟨_, rfl⟩ := hinserts.sorted.leads_agree_unique (hkept otherWay other hother) hway hagree
  obtain ⟨node, hnode⟩ := hother.finish_node
  exact absurd (lt_size_of_node hnode) (Nat.not_lt_of_le hmade)

theorem Founded.insert (hfounded : Founded order history older) (hshaped : older.Shaped)
    (hinserts : Inserts order older newer path actual insertion)
    (hinsert : older.insertPath order path = (.ok insertion, newer)) :
    Founded order (history ++ [path]) newer := by
  obtain ⟨reached, grown, hextend, _, hsize, hleadsIff, _⟩ := hshaped.insertPath_eq_ok hinsert
  obtain ⟨first, hroot, _⟩ := hshaped.rooted
  obtain ⟨hgrown, hgrows, _⟩ := hshaped.extend order path hroot
  rw [hextend] at hgrown hgrows
  have hkept : ∀ way (finish : Nat), older.Leads root way finish →
      newer.Leads root way finish :=
    fun way finish hold => (hleadsIff root way finish).mpr (hgrows.leads hold)
  constructor
  · intro keys hkeys count
    rcases List.mem_append.mp hkeys with hold | hnew
    · obtain ⟨way, finish, hway, hagree⟩ := hfounded.follows keys hold count
      exact ⟨way, finish, hkept way finish hway, hagree⟩
    · rw [List.mem_singleton.mp hnew]
      obtain ⟨middle, hfront, _⟩ := hinserts.leads.split_at count
      exact ⟨_, middle, hfront, hinserts.agree.take count⟩
  · intro above key finish hway
    by_cases hmade : older.nodes.size ≤ finish
    · obtain ⟨front, last, position, heq, hlast, hagree⟩ :=
        hshaped.extend_made (.here hroot) hextend ((hleadsIff _ _ _).mp hway) hmade
      obtain ⟨rfl, heqLast⟩ := List.append_inj' heq rfl
      obtain rfl : key = last := List.singleton_inj.mp heqLast
      rw [List.nil_append] at hagree
      have hbound := (List.getElem?_eq_some_iff.mp hlast).1
      obtain rfl : above.length = position := by
        rw [hagree.length_eq, List.length_take]
        exact Nat.min_eq_left (Nat.le_of_lt hbound)
      refine ⟨history, path, [], rfl, hlast, ?_, ?_⟩
      · rw [List.take_add_one, hlast]
        exact hagree.append (Order.Agree.refl [key])
      · intro other hother hagrees
        obtain ⟨otherWay, otherFinish, hotherWay, hotherAgree⟩ :=
          hfounded.follows other hother (above.length + 1)
        exact hinserts.not_agree_of_made hkept hway hmade hotherWay
          (hotherAgree.trans hagrees.symm)
    · have hold : older.Leads root (above ++ [key]) finish :=
        hgrows.leads_old hshaped hgrown ((hleadsIff _ _ _).mp hway) (Nat.lt_of_not_le hmade)
      obtain ⟨earlier, keys, later, hhistory, hfacts⟩ := hfounded.founder above key finish hold
      exact ⟨earlier, keys, later ++ [path], by rw [hhistory, List.append_assoc]; rfl, hfacts⟩

end Founded

end Containment.Trie
