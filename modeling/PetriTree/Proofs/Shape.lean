import PetriTree.Proofs.Refit

/-!
# PetriTree — trees that differ in one respect

A command changes names, or maps, or nets, and seldom more than one of them. What it leaves alone is an
equality at every node, and equalities pass through any number of changes.

* `IncludeTree.SameShape` — the same nodes with the same children;
* `IncludeTree.Relabels` — the same tree with other names;
* `IncludeTree.Remaps` — the same tree with other interface maps.
-/

namespace PetriTree

/-- The node, but for what it knows of the interface. -/
def TreeNode.bare (node : TreeNode) : TreeNode := { node with interface := Table.empty }

/-- Where the node hangs and what it is called. -/
def TreeNode.frame (node : TreeNode) : TreeNode := { node.bare with net := default }

namespace IncludeTree

variable {tree after : IncludeTree}

theorem length_modifyNode (tree : IncludeTree) (id : NodeId) (f : TreeNode → TreeNode) :
    (tree.modifyNode id f).nodes.slots.length = tree.nodes.slots.length := Arena.length_modify ..

/-! ## Trees of one shape -/

/-- The children of a node, if there is such a node. -/
def children? (tree : IncludeTree) (id : NodeId) : Option (List NodeId) :=
  (tree.node? id).map fun node => node.children.values

/-- The same nodes with the same children. -/
structure SameShape (tree after : IncludeTree) : Prop where
  root : after.root = tree.root
  length : after.nodes.slots.length = tree.nodes.slots.length
  children : ∀ id, after.children? id = tree.children? id

theorem includes_iff {above below : NodeId} :
    tree.Includes above below ↔ ∃ children, tree.children? above = some children ∧ below ∈ children := by
  constructor
  · rintro ⟨node, hnode, hmem⟩
    exact ⟨_, by rw [children?, hnode]; rfl, hmem⟩
  · rintro ⟨children, hchildren, hmem⟩
    obtain ⟨node, hnode, rfl⟩ := Option.map_eq_some_iff.1 hchildren
    exact ⟨node, hnode, hmem⟩

namespace SameShape

theorem refl (tree : IncludeTree) : tree.SameShape tree := ⟨rfl, rfl, fun _ => rfl⟩

theorem trans {a b c : IncludeTree} (h : a.SameShape b) (h' : b.SameShape c) : a.SameShape c :=
  ⟨h'.root.trans h.root, h'.length.trans h.length, fun id => (h'.children id).trans (h.children id)⟩

theorem includes (h : tree.SameShape after) {above below : NodeId} :
    after.Includes above below ↔ tree.Includes above below := by
  rw [includes_iff, includes_iff, h.children]

theorem isSome (h : tree.SameShape after) (id : NodeId) :
    (after.node? id).isSome = (tree.node? id).isSome := by
  have hsome := congrArg Option.isSome (h.children id)
  rwa [children?, children?, Option.isSome_map, Option.isSome_map] at hsome

theorem ordered (h : tree.SameShape after) (hordered : tree.Ordered) : after.Ordered := by
  intro above below hincludes
  rw [h.length]
  exact hordered above below (h.includes.1 hincludes)

theorem descend (h : tree.SameShape after) (bound : Nat) (id : NodeId) :
    after.descend bound id = tree.descend bound id := by
  induction bound generalizing id with
  | zero => rfl
  | succ bound ih =>
    have hchildren := h.children id
    unfold children? at hchildren
    unfold IncludeTree.descend
    cases hnode : tree.node? id with
    | none =>
      rw [hnode] at hchildren
      rw [Option.map_eq_none_iff.1 hchildren]
    | some node =>
      rw [hnode] at hchildren
      obtain ⟨node', hnode', hsame⟩ := Option.map_eq_some_iff.1 hchildren
      rw [hnode']
      dsimp only
      rw [hsame, funext ih]

/-- Trees of one shape have the same subtrees. -/
theorem subtree (h : tree.SameShape after) (id : NodeId) :
    after.subtree id = tree.subtree id := by
  rw [IncludeTree.subtree, h.length, h.descend, IncludeTree.subtree]

end SameShape

theorem sameShape_modifyNode (tree : IncludeTree) (id : NodeId) {f : TreeNode → TreeNode}
    (hf : ∀ node, (f node).children.values = node.children.values) :
    tree.SameShape (tree.modifyNode id f) := by
  refine ⟨rfl, length_modifyNode tree id f, fun other => ?_⟩
  rw [children?, node?_modifyNode, children?]
  split
  · rw [Option.map_map]
    exact congrArg (fun g => (tree.node? other).map g) (funext hf)
  · rfl

/-! ## Other names -/

/-- What a node holds, whatever it is called. -/
def contents? (tree : IncludeTree) (id : NodeId) : Option (Net × Table InterfacePlace) :=
  (tree.node? id).map fun node => (node.net, node.interface)

/-- The same tree with other names. -/
structure Relabels (tree after : IncludeTree) : Prop where
  shape : tree.SameShape after
  contents : ∀ id, after.contents? id = tree.contents? id

theorem Relabels.refl (tree : IncludeTree) : tree.Relabels tree := ⟨.refl tree, fun _ => rfl⟩

theorem Relabels.trans {a b c : IncludeTree} (h : a.Relabels b) (h' : b.Relabels c) : a.Relabels c :=
  ⟨h.shape.trans h'.shape, fun id => (h'.contents id).trans (h.contents id)⟩

theorem relabels_modifyNode (tree : IncludeTree) (id : NodeId) {f : TreeNode → TreeNode}
    (hchildren : ∀ node, (f node).children.values = node.children.values)
    (hnet : ∀ node, (f node).net = node.net) (hinterface : ∀ node, (f node).interface = node.interface) :
    tree.Relabels (tree.modifyNode id f) := by
  refine ⟨sameShape_modifyNode tree id hchildren, fun other => ?_⟩
  rw [contents?, node?_modifyNode, contents?]
  split
  · rw [Option.map_map]
    refine congrArg (fun g => (tree.node? other).map g) (funext fun node => ?_)
    exact Prod.ext (hnet node) (hinterface node)
  · rfl

theorem relabels_resolveNames (tree : IncludeTree) (id : NodeId) : tree.Relabels (tree.resolveNames id) := by
  unfold resolveNames
  split
  · exact .refl tree
  -- the root, a node whose parent is gone, and a node below another one
  · split
    · exact relabels_modifyNode tree id (fun _ => rfl) (fun _ => rfl) fun _ => rfl
    · split
      · exact .refl tree
      · exact relabels_modifyNode tree id (fun _ => rfl) (fun _ => rfl) fun _ => rfl

theorem relabels_resolveSubtree (tree : IncludeTree) (id : NodeId) :
    tree.Relabels (tree.resolveSubtree id) := by
  unfold resolveSubtree
  generalize tree.subtree id = ids
  induction ids generalizing tree with
  | nil => exact .refl tree
  | cons first rest ih => exact (relabels_resolveNames tree first).trans (ih _)

theorem relabels_touch (tree : IncludeTree) : tree.Relabels tree.touch :=
  ⟨⟨rfl, rfl, fun _ => rfl⟩, fun _ => rfl⟩

/-! ## Other maps -/

/-- The same tree with other interface maps. -/
structure Remaps (tree after : IncludeTree) : Prop where
  root : after.root = tree.root
  length : after.nodes.slots.length = tree.nodes.slots.length
  nodes : ∀ id, (after.node? id).map TreeNode.bare = (tree.node? id).map TreeNode.bare

namespace Remaps

theorem refl (tree : IncludeTree) : tree.Remaps tree := ⟨rfl, rfl, fun _ => rfl⟩

theorem trans {a b c : IncludeTree} (h : a.Remaps b) (h' : b.Remaps c) : a.Remaps c :=
  ⟨h'.root.trans h.root, h'.length.trans h.length, fun id => (h'.nodes id).trans (h.nodes id)⟩

/-- Whatever does not look at the map of a node is as before. -/
theorem map_eq {β : Type} (h : tree.Remaps after) (f : TreeNode → β) (hf : ∀ node, f node.bare = f node)
    (id : NodeId) : (after.node? id).map f = (tree.node? id).map f := by
  -- nodes that are the same but for their maps look the same to `f`
  have hnodes := congrArg (Option.map f) (h.nodes id)
  rwa [Option.map_map, Option.map_map, show f ∘ TreeNode.bare = f from funext hf] at hnodes

theorem shape (h : tree.Remaps after) : tree.SameShape after :=
  ⟨h.root, h.length, h.map_eq (fun node => node.children.values) fun _ => rfl⟩

theorem net? (h : tree.Remaps after) (id : NodeId) : after.net? id = tree.net? id :=
  h.map_eq TreeNode.net (fun _ => rfl) id

end Remaps

theorem remaps_modifyNode (tree : IncludeTree) (id : NodeId) (f : TreeNode → Table InterfacePlace) :
    tree.Remaps (tree.modifyNode id fun node => { node with interface := f node }) := by
  refine ⟨rfl, length_modifyNode .., fun n => ?_⟩
  rw [node?_modifyNode]
  split
  · rw [Option.map_map]
    rfl
  · rfl

theorem remaps_touch (tree : IncludeTree) : tree.Remaps tree.touch := ⟨rfl, rfl, fun _ => rfl⟩

end IncludeTree

end PetriTree
