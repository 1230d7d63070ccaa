import Containment.Proofs.Digits
import Containment.Proofs.Trie.Collection
import Containment.Proofs.Trie.DumpText
import Containment.Proofs.Trie.Laid

namespace Containment.Trie

variable {α : Type} {left right : Trie α} {spell : α → String}

/-! Nodes that stand in the same place of two tries: the roots, and children at one
position below nodes in the same place. -/

inductive Counterparts (left right : Trie α) : NodeId → NodeId → Prop
  | roots : Counterparts left right root root
  | children {leftId rightId : NodeId} {leftNode rightNode : Node α}
      {leftBranch rightBranch : Branch α} {position : Nat}
      (habove : Counterparts left right leftId rightId)
      (hleft : left.node leftId = .ok leftNode) (hright : right.node rightId = .ok rightNode)
      (hleftBranch : leftNode.branches[position]? = some leftBranch)
      (hrightBranch : rightNode.branches[position]? = some rightBranch) :
      Counterparts left right leftBranch.child rightBranch.child

namespace Counterparts

variable {leftId rightId : NodeId}

theorem swap (hpair : Counterparts left right leftId rightId) :
    Counterparts right left rightId leftId := by
  induction hpair with
  | roots => exact .roots
  | children _ hleft hright hleftBranch hrightBranch induction =>
      exact .children induction hright hleft hrightBranch hleftBranch

theorem exists_node (hshaped : left.Shaped) (hpair : Counterparts left right leftId rightId) :
    ∃ node, left.node leftId = .ok node := by
  cases hpair with
  | roots =>
      obtain ⟨node, hroot, _⟩ := hshaped.rooted
      exact ⟨node, hroot⟩
  | children _ hleft _ hleftBranch _ =>
      obtain ⟨child, hchild, _⟩ :=
        hshaped.linked _ _ _ hleft (List.mem_of_getElem? hleftBranch)
      exact ⟨child, hchild⟩

/-- A node has one counterpart at most, as it hangs below one node only. -/
theorem unique (hshaped : left.Shaped) (hpair : Counterparts left right leftId rightId)
    {other : NodeId} (hother : Counterparts left right leftId other) : rightId = other := by
  induction hpair generalizing other with
  | roots =>
      -- no branch leads to the root
      generalize hroot : root = start at hother
      cases hother with
      | roots => rfl
      | children _ hleft _ hleftBranch _ =>
          exact absurd hroot.symm
            (hshaped.child_ne_root hleft (List.mem_of_getElem? hleftBranch))
  | @children _ _ leftNode _ leftBranch _ position _ hleft hright hleftBranch hrightBranch
      induction =>
      generalize hchild : leftBranch.child = child at hother
      cases hother with
      | roots =>
          exact absurd hchild (hshaped.child_ne_root hleft (List.mem_of_getElem? hleftBranch))
      | children habove hfound hotherRight hfoundBranch hotherBranch =>
          obtain ⟨rfl, rfl⟩ :=
            hshaped.position_unique hleft hfound hleftBranch hfoundBranch hchild
          obtain rfl := induction habove
          obtain rfl := node_unique hright hotherRight
          rw [hrightBranch] at hotherBranch
          rw [Option.some.inj hotherBranch]

end Counterparts

/-- A pair of counterparts under which the same children hang, as far as a dump shows. -/
def Matches (left right : Trie α) (leftId rightId : NodeId) : Prop :=
  Counterparts left right leftId rightId ∧ left.entryAt leftId = right.entryAt rightId

section Pairs

variable (hleft : left.Shaped) (hright : right.Shaped)
include hleft hright

theorem Matches.childrenAt {leftId rightId : NodeId}
    (hmatches : Matches left right leftId rightId) :
    List.Forall₂ (Counterparts left right) (left.childrenAt leftId)
      (right.childrenAt rightId) := by
  obtain ⟨hpair, hentry⟩ := hmatches
  obtain ⟨leftNode, hleftNode⟩ := hpair.exists_node hleft
  obtain ⟨rightNode, hrightNode⟩ := hpair.swap.exists_node hright
  have hlength := congrArg List.length hentry
  rw [entryAt, entryAt, nodeAt_of_node hleftNode, nodeAt_of_node hrightNode, List.length_map,
    List.length_map] at hlength
  rw [childrenAt_of_node hleftNode, childrenAt_of_node hrightNode, Node.children, Node.children,
    List.forall₂_map_left_iff, List.forall₂_map_right_iff, List.forall₂_iff_get]
  refine ⟨hlength, ?_⟩
  intro position hleftBound hrightBound
  exact .children hpair hleftNode hrightNode (List.getElem?_eq_getElem hleftBound)
    (List.getElem?_eq_getElem hrightBound)

/-- Rows that read the same are rows of counterparts, as each row tells how many entries the
next has and below which nodes. -/
theorem rowsFrom_match {budget other : Nat} {lefts rights : List NodeId}
    (hpairs : List.Forall₂ (Counterparts left right) lefts rights)
    (hrows : (left.rowsFrom budget lefts).map (List.map left.entryAt) =
      (right.rowsFrom other rights).map (List.map right.entryAt)) :
    List.Forall₂ (List.Forall₂ (Matches left right)) (left.rowsFrom budget lefts)
      (right.rowsFrom other rights) := by
  fun_induction rowsFrom left budget lefts generalizing other rights with
  | case1 | case2 =>
      rw [List.map_eq_nil_iff.mp hrows.symm]
      exact .nil
  | case3 budget lefts _ induction =>
      obtain ⟨row, rows, hsplit, hline, hlater⟩ := List.map_eq_cons_iff.mp hrows.symm
      obtain ⟨rfl, less, rfl⟩ := rowsFrom_eq_cons hsplit
      have hmatches : List.Forall₂ (Matches left right) lefts row :=
        hpairs.mp (fun _ _ hpair hentry => ⟨hpair, hentry⟩) (map_eq_map_iff.mp hline.symm)
      rw [hsplit]
      exact .cons hmatches (induction
        (List.rel_flatMap hmatches fun _ _ => Matches.childrenAt hleft hright) hlater.symm)

end Pairs

/-! Two tries whose rows read the same have the same shape. -/

structure SameRows (left right : Trie α) : Prop where
  left_shaped : left.Shaped
  right_shaped : right.Shaped
  rows_eq : left.rows.map (List.map left.entryAt) = right.rows.map (List.map right.entryAt)

namespace SameRows

theorem symm (hsame : SameRows left right) : SameRows right left where
  left_shaped := hsame.right_shaped
  right_shaped := hsame.left_shaped
  rows_eq := hsame.rows_eq.symm

variable (hsame : SameRows left right)
include hsame

theorem flatten_rows :
    List.Forall₂ (Matches left right) left.rows.flatten right.rows.flatten :=
  List.rel_flatten (rowsFrom_match hsame.left_shaped hsame.right_shaped (.cons .roots .nil)
    hsame.rows_eq)

theorem size_eq : left.nodes.size = right.nodes.size := by
  rw [← hsame.left_shaped.length_flatten_rows, ← hsame.right_shaped.length_flatten_rows]
  exact hsame.flatten_rows.length_eq

theorem exists_match {id : NodeId} {node : Node α} (hnode : left.node id = .ok node) :
    ∃ other, Matches left right id other := by
  have hpairs : List.Forall₂ (flip (Matches left right)) right.rows.flatten left.rows.flatten :=
    hsame.flatten_rows.flip
  have hmem := hsame.left_shaped.mem_flatten_rows_iff.mpr ⟨node, hnode⟩
  obtain ⟨other, _, hmatches⟩ := exists_of_forall₂ hpairs hmem
  exact ⟨other, hmatches⟩

theorem exists_unique {id : Nat} (hid : id < left.nodes.size) :
    ∃! other, Counterparts left right id other := by
  obtain ⟨node, hnode⟩ := exists_node hid
  obtain ⟨other, hpair, _⟩ := hsame.exists_match hnode
  exact ⟨other, hpair, fun another hanother => hanother.unique hsame.left_shaped hpair⟩

theorem entryAt_eq {leftId rightId : NodeId} (hpair : Counterparts left right leftId rightId) :
    left.entryAt leftId = right.entryAt rightId := by
  obtain ⟨_, hnode⟩ := hpair.exists_node hsame.left_shaped
  obtain ⟨other, hother, hentry⟩ := hsame.exists_match hnode
  rw [hpair.unique hsame.left_shaped hother, hentry]

section Branches

variable {leftId rightId : Nat} {leftNode rightNode : Node α}
  (hpair : Counterparts left right leftId rightId)
  (hleft : left.node leftId = .ok leftNode) (hright : right.node rightId = .ok rightNode)
include hpair hleft hright

theorem branches : List.Forall₂ (fun leftBranch rightBranch =>
    leftBranch.key = rightBranch.key ∧
      Counterparts left right leftBranch.child rightBranch.child)
    leftNode.branches rightNode.branches := by
  have hentry := hsame.entryAt_eq hpair
  have hchildren := Matches.childrenAt hsame.left_shaped hsame.right_shaped ⟨hpair, hentry⟩
  rw [entryAt, entryAt, nodeAt_of_node hleft, nodeAt_of_node hright, map_eq_map_iff] at hentry
  rw [childrenAt_of_node hleft, childrenAt_of_node hright, Node.children, Node.children,
    List.forall₂_map_left_iff, List.forall₂_map_right_iff] at hchildren
  exact hentry.mp (fun _ _ hmark hchild => ⟨congrArg Mark.key hmark, hchild⟩) hchildren

theorem marks_eq {leftBranch rightBranch : Branch α} {position : Nat}
    (hleftBranch : leftNode.branches[position]? = some leftBranch)
    (hrightBranch : rightNode.branches[position]? = some rightBranch) :
    leftBranch.key = rightBranch.key ∧
      left.terminalAt leftBranch.child = right.terminalAt rightBranch.child := by
  have hmark := congrArg (fun entry => entry[position]?) (hsame.entryAt_eq hpair)
  simpa [entryAt, nodeAt_of_node hleft, nodeAt_of_node hright, hleftBranch, hrightBranch]
    using hmark

end Branches

theorem terminalAt_eq {leftId rightId : NodeId}
    (hpair : Counterparts left right leftId rightId) :
    left.terminalAt leftId = right.terminalAt rightId := by
  cases hpair with
  | roots =>
      obtain ⟨_, hleft, _, _, hleftUnmarked⟩ := hsame.left_shaped.rooted
      obtain ⟨_, hright, _, _, hrightUnmarked⟩ := hsame.right_shaped.rooted
      rw [terminalAt_of_node hleft, terminalAt_of_node hright, hleftUnmarked, hrightUnmarked]
  | children habove hleft hright hleftBranch hrightBranch =>
      exact (hsame.marks_eq habove hleft hright hleftBranch hrightBranch).2

theorem pathOf_eq {leftId rightId : NodeId} (hpair : Counterparts left right leftId rightId) :
    left.pathOf leftId = right.pathOf rightId := by
  induction hpair with
  | roots => rw [hsame.left_shaped.pathOf_root, hsame.right_shaped.pathOf_root]
  | children habove hleft hright hleftBranch hrightBranch induction =>
      rw [hsame.left_shaped.pathOf_child hleft (List.mem_of_getElem? hleftBranch),
        hsame.right_shaped.pathOf_child hright (List.mem_of_getElem? hrightBranch), induction,
        (hsame.marks_eq habove hleft hright hleftBranch hrightBranch).1]

/-- From counterparts the same sequences go on, in the same order. -/
theorem storedBelow_eq {leftId : Nat} {rightId : NodeId}
    (hpair : Counterparts left right leftId rightId) :
    left.storedBelow leftId = right.storedBelow rightId := by
  obtain ⟨_, hnode⟩ := hpair.exists_node hsame.left_shaped
  revert rightId
  apply hsame.left_shaped.descent (motive := fun leftId => ∀ rightId,
    Counterparts left right leftId rightId →
      left.storedBelow leftId = right.storedBelow rightId) _ (lt_size_of_node hnode)
  intro leftId leftNode hleft induction rightId hpair
  obtain ⟨rightNode, hright⟩ := hpair.swap.exists_node hsame.right_shaped
  have hterminal := hsame.terminalAt_eq hpair
  rw [terminalAt_of_node hleft, terminalAt_of_node hright] at hterminal
  rw [hsame.left_shaped.storedBelow_eq hleft, hsame.right_shaped.storedBelow_eq hright,
    hterminal]
  have hbranches := (List.forall₂_and_left _ _).mpr
    ⟨fun _ hbranch => hbranch, hsame.branches hpair hleft hright⟩
  congr 1
  rw [List.flatMap_def, List.flatMap_def]
  congr 1
  refine map_eq_map_iff.mpr (hbranches.imp ?_)
  intro leftBranch rightBranch hbranch
  obtain ⟨hmem, hkey, hchild⟩ := hbranch
  rw [hkey, induction leftBranch hmem _ hchild]

end SameRows

/-- One trie is the other up to the numbers of its nodes. -/
structure SameShape (left right : Trie α) : Prop where
  forward : ∀ leftId : Nat, leftId < left.nodes.size →
    ∃! rightId, Counterparts left right leftId rightId
  backward : ∀ rightId : Nat, rightId < right.nodes.size →
    ∃! leftId, Counterparts left right leftId rightId
  alike : ∀ leftId rightId, Counterparts left right leftId rightId →
    ∃ leftNode rightNode, left.node leftId = .ok leftNode ∧ right.node rightId = .ok rightNode ∧
      leftNode.key? = rightNode.key? ∧ leftNode.depth = rightNode.depth ∧
      leftNode.terminal = rightNode.terminal ∧
      leftNode.branches.map Branch.key = rightNode.branches.map Branch.key
  nodeCount_eq : left.nodeCount = right.nodeCount
  stored_eq : left.stored = right.stored
  collected : ∃ paths, left.collect root 0 = .ok paths ∧ right.collect root 0 = .ok paths

theorem SameRows.sameShape (hsame : SameRows left right) : SameShape left right where
  forward := fun _ hid => hsame.exists_unique hid
  backward := by
    intro rightId hid
    obtain ⟨leftId, hpair, hunique⟩ := hsame.symm.exists_unique hid
    exact ⟨leftId, hpair.swap, fun other hother => hunique other hother.swap⟩
  alike := by
    intro leftId rightId hpair
    obtain ⟨leftNode, hleft⟩ := hpair.exists_node hsame.left_shaped
    obtain ⟨rightNode, hright⟩ := hpair.swap.exists_node hsame.right_shaped
    have hpath := hsame.pathOf_eq hpair
    have hterminal := hsame.terminalAt_eq hpair
    rw [terminalAt_of_node hleft, terminalAt_of_node hright] at hterminal
    have hleftLeads := hsame.left_shaped.leads_pathOf (lt_size_of_node hleft)
    have hrightLeads := hsame.right_shaped.leads_pathOf (lt_size_of_node hright)
    refine ⟨leftNode, rightNode, hleft, hright, ?_, ?_, hterminal, ?_⟩
    · rw [hsame.left_shaped.key?_eq_getLast? hleftLeads hleft,
        hsame.right_shaped.key?_eq_getLast? hrightLeads hright, hpath]
    · rw [← hsame.left_shaped.length_pathOf hleft, ← hsame.right_shaped.length_pathOf hright,
        hpath]
    · exact map_eq_map_iff.mpr ((hsame.branches hpair hleft hright).imp fun _ _ hbranch =>
        hbranch.1)
  nodeCount_eq := by rw [nodeCount, nodeCount, hsame.size_eq]
  stored_eq := by
    rw [← hsame.left_shaped.length_storedBelow, ← hsame.right_shaped.length_storedBelow,
      hsame.storedBelow_eq .roots]
  collected := by
    refine ⟨left.storedBelow root, hsame.left_shaped.sequences_eq, ?_⟩
    rw [hsame.storedBelow_eq .roots]
    exact hsame.right_shaped.sequences_eq

theorem sameRows_of_dump (hleft : left.Shaped) (hright : right.Shaped)
    (hlegible : Legible spell) (hdump : left.dump spell = right.dump spell) :
    SameRows left right := by
  rw [hleft.dump_eq_linesText, hright.dump_eq_linesText] at hdump
  have hlines := hlegible.linesText_injective (by simpa using hleft.rows_ne_nil)
    (by simpa using hright.rows_ne_nil) (Except.ok.inj hdump)
  exact ⟨hleft, hright, hlines⟩

/-! Integers are spelled legibly: in digits, with a minus sign in front of some of them. -/

theorem legible_repr : Legible Int.repr where
  injective := integerRepr_injective
  unsigned := by
    intro number sign hsign
    have hdigits (digits : Nat) : sign ∉ digits.repr.toList := by
      intro hmem
      have hdigit := isDigit_of_mem_repr hmem
      revert sign
      simp [signs]
    rw [Int.repr_eq_if]
    split
    · exact hdigits _
    · rw [String.toList_append, List.mem_append, not_or]
      exact ⟨minus_unsigned sign hsign, hdigits _⟩
  ne_dash := by
    intro number
    rw [Int.repr_eq_if]
    split
    · intro heq
      have hmem : '-' ∈ number.toNat.repr.toList := by simp [heq]
      exact absurd (isDigit_of_mem_repr hmem) (by decide)
    · simp [Nat.repr_ne_empty]

/-- Tries that are dumped alike differ in the numbers of their nodes only, whatever the
orders under which they have grown and however much of that broke off. -/
theorem laid_dump_faithful : Legible Int.repr ∧
    ∀ {α : Type} {spell : α → String}, Legible spell →
      ∀ (leftOrder rightOrder : Order α) (leftPaths rightPaths : List (List α)),
        ∃ leftText rightText, (laid leftOrder leftPaths).dump spell = .ok leftText ∧
          (laid rightOrder rightPaths).dump spell = .ok rightText ∧
          (leftText = rightText →
            SameShape (laid leftOrder leftPaths) (laid rightOrder rightPaths)) := by
  refine ⟨legible_repr, ?_⟩
  intro α spell hlegible leftOrder rightOrder leftPaths rightPaths
  have hleft := laid_shaped leftOrder leftPaths
  have hright := laid_shaped rightOrder rightPaths
  refine ⟨_, _, hleft.dump_eq spell, hright.dump_eq spell, ?_⟩
  intro htext
  apply SameRows.sameShape
  apply sameRows_of_dump hleft hright hlegible
  rw [hleft.dump_eq, hright.dump_eq, htext]

/-- Under both orders the nodes are made in different turns. -/
def signedPaths : List (List Int) :=
  [[-9, 32], [-9], [32]]

theorem laid_dump_faithful_signedPaths :
    (laid Order.byLastDigit signedPaths).dump Int.repr = .ok "-9*,32*|\n32*|-|\n-|" ∧
      (laid Order.natural signedPaths.reverse).dump Int.repr =
        .ok "-9*,32*|\n32*|-|\n-|" ∧
      SameShape (laid Order.byLastDigit signedPaths) (laid Order.natural signedPaths.reverse) := by
  have hleft : (laid Order.byLastDigit signedPaths).dump Int.repr =
      .ok "-9*,32*|\n32*|-|\n-|" := by decide +kernel
  have hright : (laid Order.natural signedPaths.reverse).dump Int.repr =
      .ok "-9*,32*|\n32*|-|\n-|" := by decide +kernel
  obtain ⟨_, _, hleftText, hrightText, hsame⟩ := laid_dump_faithful.2 legible_repr
    Order.byLastDigit Order.natural signedPaths signedPaths.reverse
  rw [hleft] at hleftText
  rw [hright] at hrightText
  refine ⟨hleft, hright, hsame ?_⟩
  rw [← Except.ok.inj hleftText, ← Except.ok.inj hrightText]

end Containment.Trie
