import Containment.Proofs.Order.Lawful
import Containment.Proofs.Trie.Accretion
import Containment.Proofs.Trie.Change

namespace Containment.Trie

variable {α : Type} {trie : Trie α} {order : Order α}

/-! Under a lawful order nothing that is inserted makes a sorted trie unsorted, not even
a path that breaks off: a node is only made above its parent and between its siblings. -/

section Sorted

variable [Std.TransCmp order]

theorem Sorted.childOrCreate_snd (hsorted : Sorted order trie) {parent : Nat}
    {owner : Node α} (howner : trie.node parent = .ok owner) (key : α) :
    Sorted order (trie.childOrCreate order parent key).2 := by
  rcases childOrCreate_cases order key howner with
    ⟨_, _, _, hresult⟩ | ⟨position, hgap, habove, hresult⟩ | ⟨_, _, _, _, _, hresult⟩
  · rw [hresult]
    exact hsorted
  · rw [hresult]
    exact hsorted.attach howner hgap habove
  · rw [hresult]
    exact hsorted

theorem Sorted.extend_snd (hshaped : trie.Shaped) (hsorted : Sorted order trie)
    {start : Nat} {first : Node α} (hstart : trie.node start = .ok first) (keys : List α) :
    Sorted order (trie.extend order start keys).2 := by
  induction keys generalizing trie start first with
  | nil => exact hsorted
  | cons key rest induction =>
      obtain ⟨hgrownShaped, _, harrival⟩ := hshaped.childOrCreate order key hstart
      have hgrown := hsorted.childOrCreate_snd hstart key
      rw [extend_cons]
      cases hstep : trie.childOrCreate order start key with
      | mk outcome grown =>
          rw [hstep] at hgrownShaped harrival hgrown
          cases outcome with
          | error fault => exact hgrown
          | ok arrival =>
              obtain ⟨_, _, hnode⟩ := harrival arrival rfl
              exact induction hgrownShaped hgrown hnode

theorem Sorted.insertPath_snd (hshaped : trie.Shaped) (hsorted : Sorted order trie)
    (path : List α) : Sorted order (trie.insertPath order path).2 := by
  obtain ⟨_, hroot, _⟩ := hshaped.rooted
  have hextended := hsorted.extend_snd hshaped hroot path
  rcases hshaped.insertPath_snd_cases order path with heq | ⟨id, heq⟩
  · rw [heq]
    exact hextended
  · rw [heq]
    exact hextended.marked

end Sorted

/-- What paths make of the empty trie that are inserted one after another under one
order. Some of the insertions may break off. -/
def laid (order : Order α) (paths : List (List α)) : Trie α :=
  grown (paths.map (Change.path order))

theorem laid_shaped (order : Order α) (paths : List (List α)) : (laid order paths).Shaped :=
  grown_shaped _

theorem laid_sorted (order : Order α) [Std.TransCmp order] (paths : List (List α)) :
    Sorted order (laid order paths) := by
  suffices hchanged : ∀ trie : Trie α, trie.Shaped → Sorted order trie →
      Sorted order (trie.changed (paths.map (Change.path order))) from
    hchanged Trie.empty shaped_empty sorted_empty
  intro trie hshaped hsorted
  induction paths generalizing trie with
  | nil => exact hsorted
  | cons path paths induction =>
      exact induction (trie.insertPath order path).2 (hshaped.insertPath order path)
        (hsorted.insertPath_snd hshaped path)

/-- The second path shares the beginning of the first under another element and breaks off
behind a node that it has made, and so does the third. -/
def crossedPaths : List (List Int) :=
  [[21, 3, 14], [1, 2, 12, 5], [11, 9, 28]]

/-! The way down a path and the path up from a node are each other's inverse. -/

structure PathsInvert (order : Order α) (trie : Trie α) : Prop where
  /-- The path to a node leads back to it. -/
  rebuilt : ∀ (id : Nat) node, trie.node id = .ok node → ∃ keys,
    trie.pathTo id = .ok keys ∧ order.Ascends keys ∧ keys.length = node.depth ∧
      trie.findPath order keys = .ok (some id)
  found_iff : ∀ (id : Nat) keys, trie.pathTo id = .ok keys → ∀ path,
    trie.findPath order path = .ok (some id) ↔ order.Agree path keys
  /-- Every path is found or missed, and the path to what is found agrees with it. -/
  answered : ∀ path, ∃ found, trie.findPath order path = .ok found ∧
    ∀ id, found = some id → ∃ keys, trie.pathTo id = .ok keys ∧ order.Agree path keys
  told_apart : ∀ (left right : Nat) leftKeys rightKeys, trie.pathTo left = .ok leftKeys →
    trie.pathTo right = .ok rightKeys → order.Agree leftKeys rightKeys → left = right

section Paths

variable [Std.TransCmp order] (hshaped : trie.Shaped) (hsorted : Sorted order trie)
include hshaped hsorted

theorem Sorted.findPath_iff_pathTo {path : List α} {id : Nat} :
    trie.findPath order path = .ok (some id) ↔
      ∃ keys, trie.pathTo id = .ok keys ∧ order.Agree path keys := by
  rw [hsorted.findPath_eq_some_iff hshaped]
  constructor
  · rintro ⟨keys, hleads, hagree⟩
    exact ⟨keys, hshaped.pathTo_of_leads hleads, hagree.symm⟩
  · rintro ⟨keys, hpath, hagree⟩
    exact ⟨keys, hshaped.pathTo_eq_ok_iff.mp hpath, hagree.symm⟩

theorem Sorted.pathsInvert : PathsInvert order trie where
  rebuilt := by
    intro id node hnode
    obtain ⟨keys, hleads⟩ := hshaped.exists_leads (lt_size_of_node hnode)
    have hpath := hshaped.pathTo_of_leads hleads
    refine ⟨keys, hpath, hsorted.path_ascends hshaped hleads,
      (hshaped.length_of_leads hleads hnode).symm, ?_⟩
    exact (hsorted.findPath_iff_pathTo hshaped).mpr ⟨keys, hpath, Order.Agree.refl keys⟩
  found_iff := by
    intro id keys hpath path
    rw [hsorted.findPath_iff_pathTo hshaped]
    constructor
    · rintro ⟨other, hother, hagree⟩
      rw [hpath] at hother
      cases hother
      exact hagree
    · exact fun hagree => ⟨keys, hpath, hagree⟩
  answered := by
    intro path
    obtain ⟨found, hfound⟩ := hsorted.exists_findPath hshaped path
    refine ⟨found, hfound, ?_⟩
    rintro id rfl
    exact (hsorted.findPath_iff_pathTo hshaped).mp hfound
  told_apart := by
    intro left right leftKeys rightKeys hleft hright hagree
    exact (hsorted.leads_agree_unique (hshaped.pathTo_eq_ok_iff.mp hleft)
      (hshaped.pathTo_eq_ok_iff.mp hright) hagree).2

end Paths

/-- Whatever was inserted, and however much of it broke off. -/
theorem laid_pathsInvert (order : Order α) [Std.TransCmp order] (paths : List (List α)) :
    PathsInvert order (laid order paths) :=
  (laid_sorted order paths).pathsInvert (laid_shaped order paths)

theorem laid_pathsInvert_crossedPaths :
    (laid Order.byLastDigit crossedPaths).findPath Order.byLastDigit [31, 13] =
        .ok (some 2) ∧
      (laid Order.byLastDigit crossedPaths).pathTo 2 = .ok [21, 3] ∧
      PathsInvert Order.byLastDigit (laid Order.byLastDigit crossedPaths) :=
  ⟨by decide +kernel, by decide +kernel, laid_pathsInvert Order.byLastDigit crossedPaths⟩

end Containment.Trie
