import Containment.Trie.Basic

namespace Containment.Trie

variable {α : Type}

/-! A dump lists a trie generation by generation: a line for each depth, on it an
entry for each node of that depth, in the entry a mark for each child. -/

structure Mark (α : Type) where
  key : α
  /-- The path down to the key is a stored sequence. -/
  terminal : Bool
deriving DecidableEq

namespace Mark

def text (spell : α → String) (mark : Mark α) : String :=
  spell mark.key ++ if mark.terminal then "*" else ""

end Mark

/-- The marks of a node's children, in the order of its branches. -/
def marks (trie : Trie α) (node : Node α) : Except Fault (List (Mark α)) :=
  node.branches.mapM fun branch => do
    let child ← trie.node branch.child
    return { key := branch.key, terminal := child.terminal }

/-- From one generation of nodes down to the last. -/
def generations (trie : Trie α) :
    Nat → List NodeId → Except Fault (List (List (List (Mark α))))
  | _, [] => return []
  | 0, _ :: _ => throw .endless
  | budget + 1, generation => do
      let nodes ← generation.mapM trie.node
      let line ← nodes.mapM trie.marks
      let later ← trie.generations budget (nodes.flatMap Node.children)
      return line :: later

/-- A node without children is a dash. -/
def entryText (spell : α → String) : List (Mark α) → String
  | [] => "-|"
  | entry => ",".intercalate (entry.map (Mark.text spell)) ++ "|"

def lineText (spell : α → String) (line : List (List (Mark α))) : String :=
  String.join (line.map (entryText spell))

def dump (trie : Trie α) (spell : α → String) : Except Fault String := do
  let lines ← trie.generations trie.nodes.size [root]
  return "\n".intercalate (lines.map (lineText spell))

end Containment.Trie
