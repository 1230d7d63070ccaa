import Containment.Proofs.Index.Accretion
import Containment.Proofs.Index.Confluence
import Containment.Proofs.Index.Structure
import Containment.Proofs.Trie.Insertion

namespace Containment

variable {α : Type} {order : Order α} {config : Config} {index : Index α}

/-! The beginnings of sequences, the empty one left out. Those that agree are one. -/

namespace Order

def beginnings (order : Order α) [Std.TransCmp order] (sequences : List (List α)) :
    Finset (List order.Class) :=
  (((sequences.flatMap List.inits).filter fun front => !front.isEmpty).map
    fun front => front.map order.classOf).toFinset

theorem mem_beginnings_iff [Std.TransCmp order] {sequences : List (List α)}
    {classes : List order.Class} :
    classes ∈ order.beginnings sequences ↔ ∃ front back, front ++ back ∈ sequences ∧
      front ≠ [] ∧ front.map order.classOf = classes := by
  simp only [beginnings, List.mem_toFinset, List.mem_map, List.mem_filter, List.mem_flatMap,
    List.mem_inits, Bool.not_eq_true', List.isEmpty_eq_false_iff]
  constructor
  · rintro ⟨front, ⟨⟨keys, hkeys, back, rfl⟩, hne⟩, rfl⟩
    exact ⟨front, back, hkeys, hne, rfl⟩
  · rintro ⟨front, back, hkeys, hne, rfl⟩
    exact ⟨front, ⟨⟨front ++ back, hkeys, List.prefix_append front back⟩, hne⟩, rfl⟩

end Order

/-! In a trie in order the path to a node is a beginning of what is stored, and every
beginning of what is stored is the path to a node. -/

namespace Trie

variable {trie : Trie α}

theorem Shaped.pathOf_ne_nil (hshaped : trie.Shaped) {id : Nat} (hid : id < trie.nodes.size)
    (hne : id ≠ root) : trie.pathOf id ≠ [] := by
  intro hnil
  have hleads := hshaped.leads_pathOf hid
  rw [hnil] at hleads
  cases hleads
  exact hne rfl

theorem Orderly.exists_stored_beyond (horderly : Orderly order trie) {id : Nat}
    (hid : id < trie.nodes.size) (hne : id ≠ root) :
    ∃ rest, trie.pathOf id ++ rest ∈ trie.storedBelow root := by
  obtain ⟨rest, hstores⟩ := horderly.exists_stores (horderly.shaped.leads_pathOf hid) hne
  exact ⟨rest, horderly.shaped.mem_storedBelow_root_iff.mpr hstores⟩

theorem Shaped.exists_node_of_beginning (hshaped : trie.Shaped) {front back : List α}
    (hstored : front ++ back ∈ trie.storedBelow root) (hne : front ≠ []) :
    ∃ id < trie.nodes.size, id ≠ root ∧ trie.pathOf id = front := by
  obtain ⟨_, _, hleads, _⟩ := hshaped.mem_storedBelow_root_iff.mp hstored
  obtain ⟨middle, hfront, _⟩ := hleads.split
  obtain ⟨node, hnode⟩ := hfront.finish_node
  have hpath := hshaped.pathOf_of_leads hfront
  refine ⟨middle, lt_size_of_node hnode, ?_, hpath⟩
  rintro rfl
  rw [hshaped.pathOf_root] at hpath
  exact hne hpath.symm

/-- The nodes other than the root are as many as the beginnings of what is stored. -/
theorem Orderly.nodeCount_eq [Std.TransCmp order] (horderly : Orderly order trie) :
    trie.nodeCount = (order.beginnings (trie.storedBelow root)).card := by
  have hshaped := horderly.shaped
  have hcount : trie.nodeCount = ((Finset.range trie.nodes.size).erase root).card := by
    have hroot : root ∈ Finset.range trie.nodes.size := Finset.mem_range.mpr hshaped.size_pos
    rw [Finset.card_erase_of_mem hroot, Finset.card_range, nodeCount]
  rw [hcount]
  apply Finset.card_bij fun id _ => (trie.pathOf id).map order.classOf
  case hi =>
    intro id hid
    obtain ⟨hne, hrange⟩ := Finset.mem_erase.mp hid
    have hlt := Finset.mem_range.mp hrange
    obtain ⟨rest, hstored⟩ := horderly.exists_stored_beyond hlt hne
    exact Order.mem_beginnings_iff.mpr
      ⟨_, rest, hstored, hshaped.pathOf_ne_nil hlt hne, rfl⟩
  case i_inj =>
    intro left hleft right hright heq
    have hleftLt := Finset.mem_range.mp (Finset.mem_of_mem_erase hleft)
    have hrightLt := Finset.mem_range.mp (Finset.mem_of_mem_erase hright)
    exact (horderly.sorted.leads_agree_unique (hshaped.leads_pathOf hleftLt)
      (hshaped.leads_pathOf hrightLt) (Order.agree_iff_map_classOf_eq.mpr heq)).2
  case i_surj =>
    intro classes hclasses
    obtain ⟨front, back, hstored, hne, rfl⟩ := Order.mem_beginnings_iff.mp hclasses
    obtain ⟨id, hlt, hroot, hpath⟩ := hshaped.exists_node_of_beginning hstored hne
    exact ⟨id, Finset.mem_erase.mpr ⟨hroot, Finset.mem_range.mpr hlt⟩, by rw [hpath]⟩

end Trie

namespace Index

/-- The nodes of an index are the beginnings of its sets, each of them once, and only what
is newly stored makes any. -/
structure SharesBeginnings (order : Order α) [Std.TransCmp order] (index : Index α) :
    Prop where
  counted : ∃ stored, index.sets = .ok stored ∧
    index.nodeCount = (order.beginnings (stored.map (Canonical.arrange order))).card ∧
    ∀ id : Nat, id < index.trie.nodes.size → id ≠ Trie.root →
      ∃ keys ∈ stored, ∃ path, index.trie.pathTo id = .ok path ∧ path <+: keys
  told_apart : ∀ (left right : Nat) leftPath rightPath,
    index.trie.pathTo left = .ok leftPath → index.trie.pathTo right = .ok rightPath →
      order.Agree leftPath rightPath → left = right
  idle : ∀ took request,
    newlyStored request (index.serve took request).answer = none →
      (index.serve took request).index.trie = index.trie

section Sound

variable [Std.TransCmp order]

theorem Sound.arrange_stored (hsound : Sound order config index) :
    (index.trie.storedBelow Trie.root).map (Canonical.arrange order) =
      index.trie.storedBelow Trie.root := by
  have hkept : ∀ keys ∈ index.trie.storedBelow Trie.root,
      Canonical.arrange order keys = keys := by
    intro keys hkeys
    exact Canonical.arrange_of_ascends (hsound.sorted.stores_ascends hsound.shaped
      (hsound.shaped.mem_storedBelow_root_iff.mp hkeys))
  rw [List.map_congr_left hkept, List.map_id']

theorem Sound.trie_serve_of_known (hsound : Sound order config index) (took : Elapsed)
    (request : Request α)
    (hknown : newlyStored request (index.serve took request).answer = none) :
    (index.serve took request).index.trie = index.trie := by
  have hcourse := hsound.course request
  rw [serve_eq] at hknown ⊢
  generalize index.outcome request = outcome at hcourse hknown
  cases hcourse with
  | @inserted elements set newer actual insertion hset hinsert hinserts =>
      have hinserted : insertion.inserted = false := by
        cases hinserted : insertion.inserted with
        | false => rfl
        | true =>
            rw [settle, hinserted] at hknown
            cases hknown
      obtain ⟨id, node, hleads, hnode, hterminal⟩ := hinserts.stores_actual_iff.mpr hinserted
      have hagain := hsound.sorted.insertPath_of_stored set.nonempty hleads hinserts.agree hnode
        hterminal
      rw [hinsert] at hagain
      exact congrArg Prod.snd hagain
  | refused | lookedUp | subsetsFound | supersetsFound | size | isEmpty => rfl

theorem Sound.sharesBeginnings (hsound : Sound order config index) :
    SharesBeginnings order index where
  counted := by
    refine ⟨_, hsound.shaped.sequences_eq, ?_, ?_⟩
    · rw [hsound.arrange_stored]
      exact hsound.orderly.nodeCount_eq
    · intro id hid hne
      obtain ⟨rest, hstored⟩ := hsound.orderly.exists_stored_beyond hid hne
      exact ⟨_, hstored, _, hsound.shaped.pathTo_eq hid, List.prefix_append _ rest⟩
  told_apart := hsound.wellFormed.paths_differ
  idle := hsound.trie_serve_of_known

end Sound

theorem run_sharesBeginnings (order : Order α) [Std.TransCmp order] (config : Config)
    (recorder : Recorder) (calls : List (Call α)) :
    SharesBeginnings order (run order config recorder calls) :=
  (run_sound order config recorder calls).sharesBeginnings

theorem run_sharesBeginnings_digitCalls :
    (run Order.byLastDigit .default .silent digitCalls).nodeCount = 3 ∧
      (run Order.byLastDigit .default .silent digitCalls).sets =
        .ok [[11], [11, 13, 25]] ∧
      SharesBeginnings Order.byLastDigit
        (run Order.byLastDigit .default .silent digitCalls) :=
  ⟨by decide +kernel, by decide +kernel,
    run_sharesBeginnings Order.byLastDigit .default .silent digitCalls⟩

end Index

end Containment
