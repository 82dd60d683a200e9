import PetriTree.Proofs.TreeCommand

/-!
# PetriTree — trees without loose nodes

A guard that goes through the walk of a tree speaks of every node only if the walk meets every node. It
does, because a node comes into the tree as a child and leaves it together with all that hangs below it.

Main results:
* `IncludeTree.Rooted.mem_walk` — every node of a rooted tree stands in its walk;
* `IncludeTree.Rooted.grow`, `IncludeTree.Rooted.prune` — a node more, and a subtree less.
-/

namespace PetriTree

namespace Table

variable {t : Table α} {name : String}

theorem mem_values_iff {value : α} : value ∈ t.values ↔ ∃ key, t.get? key = some value := by
  constructor
  · intro h
    obtain ⟨⟨key, _⟩, he, rfl⟩ := List.mem_map.1 h
    exact ⟨key, get?_eq_some_iff.2 he⟩
  · rintro ⟨key, h⟩
    exact List.mem_map.2 ⟨(key, value), get?_eq_some_iff.1 h, rfl⟩

end Table

namespace IncludeTree

variable {tree after : IncludeTree}

/-- No node hangs loose: each but the root is a child of a node of the tree. -/
structure Rooted (tree : IncludeTree) : Prop where
  younger : tree.Ordered
  held : ∀ id, (tree.node? id).isSome → id = tree.root ∨ ∃ above, tree.Includes above id

theorem Includes.isSome {above below : NodeId} (h : tree.Includes above below) :
    (tree.node? above).isSome := by
  obtain ⟨node, hnode, _⟩ := h
  rw [hnode]
  rfl

/-! ## The walk meets every node -/

/-- A list with all parents first is closed under going down. -/
theorem ParentsFirst.mem {ids : List NodeId} (h : tree.ParentsFirst ids) {above below : NodeId}
    (habove : above ∈ ids) (hincludes : tree.Includes above below) (hlive : (tree.node? below).isSome) :
    below ∈ ids := by
  induction ids with
  | nil => cases habove
  | cons first rest ih =>
    refine List.mem_cons_of_mem _ ?_
    rcases List.mem_cons.1 habove with rfl | habove
    · exact h.1 below hincludes hlive
    · exact ih h.2 habove

theorem mem_subtree_self {id : NodeId} (hlive : (tree.node? id).isSome) : id ∈ tree.subtree id := by
  obtain ⟨node, hnode⟩ := Option.isSome_iff_exists.1 hlive
  -- a node has a slot, so at least one level is looked at
  have hslot := Arena.lt_of_get? _ hnode
  obtain ⟨bound, hlength⟩ : ∃ bound, tree.nodes.slots.length = bound + 1 :=
    ⟨tree.nodes.slots.length - 1, by omega⟩
  rw [subtree, hlength, descend, hnode]
  exact List.mem_cons_self ..

namespace Rooted

theorem mem_subtree (h : tree.Rooted) {id : NodeId} (hlive : (tree.node? id).isSome) :
    id ∈ tree.subtree tree.root := by
  -- parents are older, so the way up ends, and it ends at the root
  induction hindex : id.index using Nat.strongRecOn generalizing id with
  | ind index ih =>
    subst hindex
    rcases h.held id hlive with rfl | ⟨above, hincludes⟩
    · exact mem_subtree_self hlive
    · have hup := ih above.index (h.younger above id hincludes).1 hincludes.isSome rfl
      exact (h.younger.parentsFirst_subtree tree.root).mem hup hincludes hlive

/-- Every node of a rooted tree stands in its walk. -/
theorem mem_walk (h : tree.Rooted) {id : NodeId} {node : TreeNode} (hnode : tree.node? id = some node) :
    (id, node) ∈ tree.walk :=
  IncludeTree.mem_walk.2 ⟨h.mem_subtree (by rw [hnode]; rfl), hnode⟩

end Rooted

namespace SameShape

theorem rooted (h : tree.SameShape after) (hrooted : tree.Rooted) : after.Rooted where
  younger := h.ordered hrooted.younger
  held id hlive := by
    rw [h.isSome] at hlive
    rw [h.root]
    exact (hrooted.held id hlive).imp_right fun ⟨above, hincludes⟩ => ⟨above, h.includes.2 hincludes⟩

end SameShape

theorem relabels_called (tree : IncludeTree) (id : NodeId) (name : String) :
    tree.Relabels (tree.called id name) := by
  have hlocal := relabels_modifyNode tree id (f := fun node => { node with localName := name })
    (fun _ => rfl) (fun _ => rfl) fun _ => rfl
  exact (hlocal.trans (relabels_resolveSubtree _ id)).trans (relabels_touch _)

/-- A new alias changes names only. -/
theorem relabels_rename {id : NodeId} {name : String} (h : tree.rename id name = .ok after) :
    tree.Relabels after := by
  obtain ⟨node, _, _, ⟨_, rfl⟩ | ⟨parent, _, rfl⟩⟩ := rename_eq_ok h
  · exact relabels_called ..
  · refine Relabels.trans (relabels_modifyNode tree parent ?_ ?_ ?_) (relabels_called ..)
    · exact fun above => Table.values_rename ..
    · exact fun _ => rfl
    · exact fun _ => rfl

/-! ## A node more -/

namespace Rooted

variable {parent : NodeId} {owner node : TreeNode} {name : String}

/-- The parent has the new node as one more child. -/
theorem grow (h : tree.Rooted) (howner : tree.node? parent = some owner)
    (hchildren : node.children = Table.empty) (hfree : owner.children.contains name = false) :
    (tree.grow parent name node).Rooted where
  younger := h.younger.grow howner hchildren
  held id hlive := by
    have hgrown : (tree.grow parent name node).node? parent =
        some { owner with children := owner.children.insert name tree.nodes.nextId } := by
      rw [node?_grow_eq howner, if_neg (ne_nextId howner), if_pos rfl]
    have hvalues : ∀ child, child ∈ (owner.children.insert name tree.nodes.nextId).values ↔
        child ∈ owner.children.values ∨ child = tree.nodes.nextId := by
      intro child
      rw [Table.values, Table.entries_insert _ hfree]
      simp [Table.values]
    obtain ⟨found, hfound⟩ := Option.isSome_iff_exists.1 hlive
    rcases node?_grow howner hfound with ⟨hnew, _⟩ | ⟨old, hold, _⟩
    · exact Or.inr ⟨parent, _, hgrown, (hvalues id).2 (Or.inr hnew)⟩
    -- an older node hangs where it hung, though the parent has another child
    · refine (h.held id (by rw [hold]; rfl)).imp_right ?_
      rintro ⟨above, oldAbove, hold, hchild⟩
      refine ⟨above, ?_⟩
      by_cases hparent : above = parent
      · subst hparent
        rw [howner] at hold
        cases hold
        exact ⟨_, hgrown, (hvalues id).2 (Or.inl hchild)⟩
      · refine ⟨oldAbove, ?_, hchild⟩
        rw [node?_grow_eq howner, if_neg (ne_nextId hold), if_neg hparent, hold]

end Rooted

/-! ## A subtree less -/

/-- What an id stands for in the pruned tree. -/
theorem node?_prune (tree : IncludeTree) (parent : NodeId) (name : String) (doomed : List NodeId)
    (id : NodeId) : (tree.prune parent name doomed).node? id =
      if id ∈ doomed then none
      else (tree.node? id).map fun node => { node with
        children := if id = parent then node.children.erase name else node.children
        interface := node.interface.filter fun _ e => !doomed.contains e.home.node } := by
  rw [node?, prune, Arena.get?_foldl_remove, Arena.get?_map]
  have hmodify := node?_modifyNode tree parent id fun node =>
    { node with children := node.children.erase name }
  rw [node?] at hmodify
  rw [hmodify]
  by_cases hparent : id = parent
  · simp only [hparent, if_true, Option.map_map, Function.comp_def]
  · simp only [hparent, if_false]

/-- What is left of a rooted tree is rooted: a subtree goes with all its branches. -/
theorem Rooted.prune (h : tree.Rooted) {parent id : NodeId} {node : TreeNode} {name : String}
    (hparent : tree.node? parent = some node) (hchild : node.children.get? name = some id) :
    (tree.prune parent name (tree.subtree id)).Rooted where
  younger above below hincludes := by
    have hlength : (tree.prune parent name (tree.subtree id)).nodes.slots.length =
        tree.nodes.slots.length := by
      rw [IncludeTree.prune]
      simp only [Arena.length_foldl_remove, Arena.length_map, length_modifyNode]
    rw [hlength]
    refine h.younger above below ?_
    obtain ⟨pruned, hpruned, hmem⟩ := hincludes
    rw [node?_prune] at hpruned
    split at hpruned
    · cases hpruned
    · obtain ⟨old, hold, rfl⟩ := Option.map_eq_some_iff.1 hpruned
      refine ⟨old, hold, ?_⟩
      dsimp only at hmem
      split at hmem
      · exact (Table.mem_values_filter hmem).1
      · exact hmem
  held other hlive := by
    have hkept : other ∉ tree.subtree id := by
      intro hmem
      rw [node?_prune, if_pos hmem] at hlive
      cases hlive
    rw [node?_prune, if_neg hkept, Option.isSome_map] at hlive
    refine (h.held other hlive).imp_right ?_
    rintro ⟨above, old, hold, hbelow⟩
    -- the node above would have taken this one with it
    have habove : above ∉ tree.subtree id := fun hmem =>
      hkept ((h.younger.parentsFirst_subtree id).mem hmem ⟨old, hold, hbelow⟩ hlive)
    refine ⟨above, _, by rw [node?_prune, if_neg habove, hold]; rfl, ?_⟩
    dsimp only
    split
    · rename_i heq
      subst heq
      rw [hparent] at hold
      cases hold
      obtain ⟨key, hkey⟩ := Table.mem_values_iff.1 hbelow
      refine Table.mem_values_iff.2 ⟨key, ?_⟩
      rw [Table.get?_erase, if_neg ?_, hkey]
      -- under the alias itself hangs what is taken out
      rintro rfl
      rw [hchild] at hkey
      cases hkey
      exact hkept (mem_subtree_self hlive)
    · exact hbelow

end IncludeTree

end PetriTree
