import Containment.Proofs.Index.Confluence
import Containment.Proofs.Index.Operation
import Containment.Proofs.Trie.DumpText
import Containment.Proofs.Trie.Fronts

namespace Containment

variable {α : Type} {order : Order α}

namespace Order

/-! A family of sequences in writing: a line for each length, on it what every beginning of
that length goes on with. -/

/-- The last element of a beginning, with a star where the beginning is a member. -/
def lastText (order : Order α) (spell : α → String) (sets : List (List α))
    (front : List α) : String :=
  front.getLast?.elim "" spell ++
    if sets.any (order.sequences.equivalent front) then "*" else ""

def frontText (order : Order α) (spell : α → String) (sets : List (List α))
    (front : List α) : String :=
  if order.goesOn sets front then
    ",".intercalate ((order.extensions sets front).map (order.lastText spell sets)) ++ "|"
  else "-|"

def frontsText (order : Order α) (spell : α → String) (sets : List (List α))
    (length : Nat) : String :=
  String.join ((order.fronts sets length).map (order.frontText spell sets))

def familyText (order : Order α) (spell : α → String) (sets : List (List α)) : String :=
  "\n".intercalate ((List.range (longest sets + 1)).map (order.frontsText spell sets))

end Order

namespace Trie

variable {trie : Trie α}

namespace Orderly

variable [Std.TransCmp order] (horderly : Orderly order trie) (spell : α → String)
include horderly

theorem lastText_branch {id : Nat} {node : Node α} (hnode : trie.node id = .ok node)
    {branch : Branch α} (hbranch : branch ∈ node.branches) :
    order.lastText spell (trie.storedBelow root) (trie.pathOf id ++ [branch.key]) =
      Mark.text spell { key := branch.key, terminal := trie.terminalAt branch.child } := by
  obtain ⟨child, hchild, _⟩ := horderly.shaped.linked id node branch hnode hbranch
  have hstored := horderly.any_equivalent_pathOf hchild
  rw [horderly.shaped.pathOf_child hnode hbranch] at hstored
  rw [Order.lastText, hstored, List.getLast?_concat, terminalAt_of_node hchild]
  rfl

theorem frontText_pathOf {id : Nat} {node : Node α} (hnode : trie.node id = .ok node) :
    order.frontText spell (trie.storedBelow root) (trie.pathOf id) =
      entryText spell (trie.entryAt id) := by
  rw [Order.frontText, horderly.goesOn_pathOf hnode, horderly.extensions_eq hnode, entryAt,
    nodeAt_of_node hnode, Node.isLeaf]
  by_cases hempty : node.branches = []
  · simp [hempty, entryText]
  · have hlast : node.branches.map (fun branch =>
          order.lastText spell (trie.storedBelow root) (trie.pathOf id ++ [branch.key])) =
        node.branches.map fun branch =>
          Mark.text spell { key := branch.key, terminal := trie.terminalAt branch.child } := by
      apply List.map_congr_left
      intro branch hbranch
      exact horderly.lastText_branch spell hnode hbranch
    rw [if_pos (by simpa using hempty), entryText_eq, bodyText,
      spellings_of_ne_nil (by simpa using hempty), List.map_map, List.map_map]
    exact congrArg (fun texts => ",".intercalate texts ++ "|") hlast

theorem frontsText_eq {row : List NodeId} {depth : Nat} (hrow : trie.rows[depth]? = some row) :
    order.frontsText spell (trie.storedBelow root) depth =
      lineText spell (row.map trie.entryAt) := by
  rw [Order.frontsText, horderly.fronts_eq hrow, lineText, List.map_map, List.map_map]
  congr 1
  apply List.map_congr_left
  intro id hid
  obtain ⟨node, hnode, _⟩ := (horderly.shaped.dumpedOnce.ranked depth row hrow id).mp hid
  exact horderly.frontText_pathOf spell hnode

theorem dump_eq_familyText :
    trie.dump spell = .ok (order.familyText spell (trie.storedBelow root)) := by
  have hlines : trie.rows.map (fun row => lineText spell (row.map trie.entryAt)) =
      (List.range (Order.longest (trie.storedBelow root) + 1)).map
        (order.frontsText spell (trie.storedBelow root)) := by
    apply List.ext_getElem
    · simp [horderly.length_rows]
    · intro depth hleft hright
      have hrow : trie.rows[depth]? = some _ :=
        List.getElem?_eq_getElem (by simpa using hleft)
      rw [List.getElem_map, List.getElem_map, List.getElem_range,
        horderly.frontsText_eq spell hrow]
  rw [horderly.shaped.dumpedOnce.spelled, hlines]
  rfl

end Orderly

end Trie

namespace Index

variable {config : Config} {index : Index α} {spell : α → String} {sets : List (List α)}

/-- The dump of an index is the listing of its family: one line for each length up to that of
a longest set, and among the signs one star for each set. -/
structure DumpsFamily (order : Order α) (index : Index α) (spell : α → String)
    (sets : List (List α)) : Prop where
  listed : index.sets = .ok sets
  counted : sets.length = index.size
  dumped : index.dump spell = .ok (order.familyText spell sets)
  -- so that it does not matter of which member a beginning is taken
  shared : ∀ left ∈ sets, ∀ right ∈ sets, ∀ length,
    order.Agree (left.take length) (right.take length) → left.take length = right.take length
  marked : ∃ lines, index.trie.generations index.trie.nodes.size [Trie.root] = .ok lines ∧
    lines.flatten.flatten.countP Trie.Mark.terminal = index.size
  starred : (∀ element, '*' ∉ (spell element).toList) →
    (order.familyText spell sets).toList.count '*' = index.size
  ends : ∀ length ≤ Order.longest sets,
    (∀ front ∈ order.fronts sets length, order.goesOn sets front = false) ↔
      length = Order.longest sets

variable [Std.TransCmp order]

theorem Sound.dumpsFamily (hsound : Sound order config index) (spell : α → String) :
    index.DumpsFamily order spell (index.trie.storedBelow Trie.root) where
  listed := hsound.shaped.sequences_eq
  counted := hsound.shaped.length_storedBelow
  dumped := hsound.orderly.dump_eq_familyText spell
  shared := by
    intro left hleft right hright length hagree
    obtain ⟨_, _, hleftLeads, _⟩ := hsound.shaped.mem_storedBelow_root_iff.mp hleft
    obtain ⟨_, _, hrightLeads, _⟩ := hsound.shaped.mem_storedBelow_root_iff.mp hright
    obtain ⟨_, hleftFront, _⟩ := hleftLeads.split_at length
    obtain ⟨_, hrightFront, _⟩ := hrightLeads.split_at length
    exact (hsound.sorted.leads_agree_unique hleftFront hrightFront hagree).1
  marked := ⟨_, hsound.shaped.dumpedOnce.listed,
    (Trie.countP_marks index.trie).trans hsound.shaped.countP_written⟩
  starred := by
    intro hspell
    have hdump := hsound.orderly.dump_eq_familyText spell
    rw [hsound.shaped.dump_eq_linesText] at hdump
    rw [← Except.ok.inj hdump, Trie.count_linesText hspell, Trie.countP_marks,
      hsound.shaped.countP_written]
    rfl
  ends := fun length hlength => Order.fronts_end_iff hlength

/-- Whatever an index has been through, its dump tells its family and nothing else. -/
theorem operated_dumpsFamily (order : Order α) [Std.TransCmp order] (config : Config)
    (recorder : Recorder) (operations : List (Operation α)) (spell : α → String) :
    ∃ sets, (((build order config).withRecorder recorder).operated operations).DumpsFamily
      order spell sets :=
  ⟨_, ((Sound.build order config recorder).operated operations).dumpsFamily spell⟩

def listedOperations : List (Operation Int) :=
  [.serve .zero (.add [25, 11, 13]), .serve .zero (.add [1]), .sets,
    .serve .zero (.add [4, 31]), .dump Int.repr, .serve .zero (.add [13, 25])]

theorem operated_dumpsFamily_listedOperations :
    (((build Order.byLastDigit .default).withRecorder .silent).operated listedOperations).dump
        Int.repr = .ok "11*,13|\n13,4*|25*|\n25*|-|-|\n-|" ∧
      ∃ sets, (((build Order.byLastDigit .default).withRecorder .silent).operated
        listedOperations).DumpsFamily Order.byLastDigit Int.repr sets :=
  ⟨by decide +kernel,
    operated_dumpsFamily Order.byLastDigit .default .silent listedOperations Int.repr⟩

end Index

end Containment
