import PetriTree.Proofs.Knit

/-!
# PetriTree — what commands leave as it is

A command on the interface changes nets and maps, and names are recomputed without moving a node. What is left
alone is a view of the nodes that is the same before and after, and who looks at less sees no more change.

Main results:
* `IncludeTree.SameView` — trees that look the same at every node, as far as one looks;
* `frame_perform` — a command on the interface changes nets and maps only;
* `seat_resolveSubtree`, `seat_equipped` — nodes that get new names hang where they hung.
-/

namespace PetriTree

/-- The command attaches, detaches or renames a node. -/
def TreeCommand.Reshapes : TreeCommand → Prop
  | .attach .. | .detach .. | .rename .. => True
  | _ => False

/-- Where a node hangs: its alias, its parent and its children. -/
def TreeNode.seat (node : TreeNode) : String × Option NodeId × Table NodeId :=
  (node.localName, node.parent, node.children)

namespace IncludeTree

variable {tree after : IncludeTree} {β : Type}

/-! ## Trees that look the same -/

/-- The same tree, as far as `view` shows its nodes. -/
structure SameView (view : TreeNode → β) (tree after : IncludeTree) : Prop where
  root : after.root = tree.root
  length : after.nodes.slots.length = tree.nodes.slots.length
  nodes : ∀ id, (after.node? id).map view = (tree.node? id).map view

namespace SameView

variable {view : TreeNode → β}

theorem refl (view : TreeNode → β) (tree : IncludeTree) : tree.SameView view tree := ⟨rfl, rfl, fun _ => rfl⟩

theorem symm (h : tree.SameView view after) : after.SameView view tree :=
  ⟨h.root.symm, h.length.symm, fun id => (h.nodes id).symm⟩

theorem trans {a b c : IncludeTree} (h : a.SameView view b) (h' : b.SameView view c) : a.SameView view c :=
  ⟨h'.root.trans h.root, h'.length.trans h.length, fun id => (h'.nodes id).trans (h.nodes id)⟩

/-- Who looks at less sees the same. -/
theorem map {γ : Type} (h : tree.SameView view after) (f : β → γ) :
    tree.SameView (fun node => f (view node)) after := by
  refine ⟨h.root, h.length, fun id => ?_⟩
  have hnodes := congrArg (Option.map f) (h.nodes id)
  rwa [Option.map_map, Option.map_map] at hnodes

theorem bind_eq {γ : Type} (h : tree.SameView view after) (f : β → Option γ) (id : NodeId) :
    ((after.node? id).bind fun node => f (view node)) = (tree.node? id).bind fun node => f (view node) := by
  have hnodes := congrArg (Option.bind · f) (h.nodes id)
  simpa only [Option.bind_map, Function.comp_def] using hnodes

/-- Every node of the tree is there afterwards and looks the same. -/
theorem exists_after (h : tree.SameView view after) {id : NodeId} {node : TreeNode}
    (hnode : tree.node? id = some node) : ∃ node', after.node? id = some node' ∧ view node' = view node := by
  have hnodes := h.nodes id
  rw [hnode] at hnodes
  exact Option.map_eq_some_iff.1 hnodes

end SameView

theorem sameView_modifyNode {view : TreeNode → β} (tree : IncludeTree) (id : NodeId) {f : TreeNode → TreeNode}
    (hf : ∀ node, view (f node) = view node) : tree.SameView view (tree.modifyNode id f) := by
  refine ⟨rfl, length_modifyNode .., fun other => ?_⟩
  rw [node?_modifyNode]
  split
  · rw [Option.map_map]
    exact congrArg (fun g => (tree.node? other).map g) (funext hf)
  · rfl

theorem sameView_touch (view : TreeNode → β) (tree : IncludeTree) : tree.SameView view tree.touch :=
  ⟨rfl, rfl, fun _ => rfl⟩

/-- Who does not look at maps does not see that they change. -/
theorem Remaps.sameView {view : TreeNode → β} (h : tree.Remaps after) (hview : ∀ node, view node.bare = view node) :
    tree.SameView view after :=
  ⟨h.root, h.length, h.map_eq view hview⟩

theorem Remaps.frame (h : tree.Remaps after) : tree.SameView TreeNode.frame after := h.sameView fun _ => rfl

theorem frame_setNet (tree : IncludeTree) (id : NodeId) (net : Net) :
    tree.SameView TreeNode.frame (tree.setNet id net) :=
  sameView_modifyNode tree id fun _ => rfl

/-! ## Commands that leave nodes where they hang -/

theorem frame_edits {command : MapCommand} {ids : List NodeId} (h : Edits command ids tree after) :
    tree.SameView TreeNode.frame after := by
  have hframe : ∀ node : TreeNode, (edited command node).frame = node.frame := fun node => by
    unfold edited
    split
    · rename_i happly
      obtain ⟨_, _, rfl⟩ := applyCommand_keeps happly
      rfl
    · rfl
  refine ⟨h.root, h.length, fun id => ?_⟩
  rw [h.nodes]
  split
  · rw [Option.map_map]
    exact congrArg (fun f => (tree.node? id).map f) (funext hframe)
  · rfl

theorem frame_release {id : NodeId} {away place : String} (h : tree.release id away place = .ok after) :
    tree.SameView TreeNode.frame after := by
  rcases release_cases tree id away place with heq | ⟨node, found, net, _, _, _, heq⟩
  · rw [heq] at h
    cases h
    exact .refl _ tree
  · rw [heq] at h
    cases h
    exact frame_setNet tree id net

/-- A command on the interface changes nets and maps only. -/
theorem frame_perform {command : TreeCommand} (h : ¬ command.Reshapes) :
    tree.SameView TreeNode.frame (tree.perform command).1 := by
  cases command with
  | attach parent net name => exact absurd trivial h
  | detach parent name => exact absurd trivial h
  | rename id name => exact absurd trivial h
  | publish id place =>
    show tree.SameView TreeNode.frame (tree.publish id place).1
    rcases publish_cases tree id place with ⟨_, heq⟩ | ⟨owner, found, net, _, heq⟩ <;> rw [heq]
    · exact .refl _ tree
    · exact (remaps_announced ..).frame.trans (frame_setNet ..)
  | useInterface id away =>
    refine settled_keeps (.refl _ tree) fun answer after hcommand => ?_
    rcases useInterface_eq_ok hcommand with rfl | ⟨consumer, entry, net, _, rfl⟩
    · exact .refl _ _
    · refine SameView.trans ?_ (sameView_touch ..)
      exact sameView_modifyNode tree id fun _ => rfl
  | dropInterface id away =>
    refine settledDone_keeps (.refl _ tree) fun after hcommand => ?_
    obtain ⟨owner, entry, _, ⟨_, _, _, _, rfl⟩ | ⟨_, rfl⟩⟩ := dropInterface_eq_ok hcommand <;>
    · refine SameView.trans ?_ (sameView_touch ..)
      exact sameView_modifyNode tree id fun _ => rfl
  | withdraw id away =>
    show tree.SameView TreeNode.frame (tree.withdraw id away).1
    rcases withdraw_cases tree id away with ⟨_, heq⟩ | ⟨node, entry, released, _, hrelease, heq⟩ <;> rw [heq]
    · exact .refl _ tree
    · exact ((remaps_forget ..).frame.trans (frame_release hrelease)).trans (sameView_touch ..)
  | execute id scope command =>
    show tree.SameView TreeNode.frame (tree.execute id scope command).1
    rcases execute_cases tree id scope command with ⟨_, heq⟩ | ⟨edited, _, hedits, heq⟩ <;> rw [heq]
    · exact .refl _ tree
    · exact (frame_edits hedits).trans (sameView_touch ..)

theorem SameView.seat (h : tree.SameView TreeNode.frame after) : tree.SameView TreeNode.seat after :=
  h.map TreeNode.seat

/-- Who does not look at names does not see that they are recomputed. -/
theorem sameView_resolveNames {view : TreeNode → β}
    (hview : ∀ (node : TreeNode) (name qualifiedName path : String),
      view { node with name := name, qualifiedName := qualifiedName, path := path } = view node)
    (tree : IncludeTree) (id : NodeId) : tree.SameView view (tree.resolveNames id) := by
  unfold resolveNames
  split
  · exact .refl _ tree
  · split
    · exact sameView_modifyNode tree id fun node => hview node _ _ node.path
    · split
      · exact .refl _ tree
      · exact sameView_modifyNode tree id fun node => hview node _ _ _

theorem seat_resolveNames (tree : IncludeTree) (id : NodeId) :
    tree.SameView TreeNode.seat (tree.resolveNames id) :=
  sameView_resolveNames (fun _ _ _ _ => rfl) tree id

/-- Names may change and nodes stay where they hang. -/
theorem seat_foldl_resolveNames (tree : IncludeTree) (ids : List NodeId) :
    tree.SameView TreeNode.seat (ids.foldl resolveNames tree) := by
  induction ids generalizing tree with
  | nil => exact .refl _ tree
  | cons first rest ih => exact (seat_resolveNames tree first).trans (ih _)

theorem seat_resolveSubtree (tree : IncludeTree) (id : NodeId) :
    tree.SameView TreeNode.seat (tree.resolveSubtree id) :=
  seat_foldl_resolveNames tree (tree.subtree id)

/-- A node that is given its names, what is available to it and its homes hangs where it hung and holds the net
it held. -/
theorem sameView_equipped (tree : IncludeTree) (id : NodeId) :
    tree.SameView (fun node => (node.seat, node.net))
      ((((tree.resolveNames id).seedAvailable id).registerHomes id).touch) := by
  have hremaps : (tree.resolveNames id).Remaps (((tree.resolveNames id).seedAvailable id).registerHomes id) :=
    (remaps_seedAvailable ..).trans (remaps_registerHomes ..)
  have hequipped := (hremaps.sameView fun _ => rfl).trans (sameView_touch (fun node => (node.seat, node.net)) _)
  exact (sameView_resolveNames (fun _ _ _ _ => rfl) tree id).trans hequipped

theorem seat_equipped (tree : IncludeTree) (id : NodeId) :
    tree.SameView TreeNode.seat ((((tree.resolveNames id).seedAvailable id).registerHomes id).touch) :=
  (sameView_equipped tree id).map Prod.fst

end IncludeTree

end PetriTree
