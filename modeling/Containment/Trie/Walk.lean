import Containment.Trie.Path

namespace Containment.Trie

variable {α ω ρ : Type}

/-! A traversal works through a list of pending items, the first of them first.
A visit to an item yields results and puts further items before the others. -/

structure Visit (ω ρ : Type) where
  yields : List ρ
  next : List ω

/-- An item that has been visited, with what it yielded. -/
structure Visited (ω ρ : Type) where
  item : ω
  yields : List ρ

/-- The visited items in the order of their visits, at most `budget` of them. -/
def walk (visit : ω → Except Fault (Visit ω ρ)) :
    Nat → List ω → Except Fault (List (Visited ω ρ))
  | _, [] => return []
  | 0, _ :: _ => throw .endless
  | budget + 1, item :: pending => do
      let visited ← visit item
      let later ← walk visit budget (visited.next ++ pending)
      return { item, yields := visited.yields } :: later

/-- What a traversal yielded, in the order of the visits. -/
def harvest (visited : List (Visited ω ρ)) : List ρ :=
  visited.flatMap Visited.yields

@[simp] theorem walk_nil (visit : ω → Except Fault (Visit ω ρ)) (budget : Nat) :
    walk visit budget [] = .ok [] := by
  cases budget <;> rfl

@[simp] theorem harvest_nil : harvest ([] : List (Visited ω ρ)) = [] := rfl

@[simp] theorem harvest_cons (first : Visited ω ρ) (rest : List (Visited ω ρ)) :
    harvest (first :: rest) = first.yields ++ harvest rest := by
  simp [harvest]

/-! Collecting the stored sequences of a subtree visits its nodes with every
parent before its children and the children in the order of their branches. -/

def collectVisit (trie : Trie α) (shortest : Nat) (id : NodeId) :
    Except Fault (Visit NodeId (List α)) := do
  let node ← trie.node id
  if node.terminal && shortest < node.depth then
    return { yields := [← trie.pathTo id], next := node.children }
  else
    return { yields := [], next := node.children }

/-- The stored sequences that lead to a node of the subtree and are longer than
`shortest`. -/
def collect (trie : Trie α) (id : NodeId) (shortest : Nat) :
    Except Fault (List (List α)) := do
  let visited ← walk (trie.collectVisit shortest) trie.nodes.size [id]
  return harvest visited

/-- Every stored sequence. -/
def sequences (trie : Trie α) : Except Fault (List (List α)) :=
  trie.collect root 0

/-! What a search found, and how many items it visited. -/

structure Findings (α : Type) where
  sets : List (List α)
  visited : Nat
deriving DecidableEq

namespace Findings

def none : Findings α :=
  { sets := [], visited := 0 }

def ofVisited (visited : List (Visited ω (List α))) : Findings α :=
  { sets := harvest visited, visited := visited.length }

end Findings

end Containment.Trie
